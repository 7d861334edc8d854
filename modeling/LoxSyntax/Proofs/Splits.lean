import LoxSyntax.Proofs.Juxtaposition
import LoxSyntax.Proofs.Programs
import LoxSyntax.Proofs.WholeExpressions

/-!
Splits of a program into blocks. Where semicolons are optional a program can have several splits,
since a bare block may be followed by one that starts with a minus. Two such blocks can always be
joined, and when no two are left the split is the one that is read. So reading on as far as
possible rejects nothing that some other split accepts, and finds the fewest statements.
-/

namespace LoxSyntax

open Grammar

/-- Whether the tokens of `body`, closed by an end mark, are read as the expression `value`. -/
def Settings.Accepts (settings : Settings) (body : List Token) (value : Expr) : Prop :=
  ∃ s, TokenStream.ofTokens (body ++ [Token.mark]) = .ok s ∧
    readExpression settings s = .ok value

theorem Settings.accepts_iff_fits {settings : Settings} {body : List Token} {value : Expr}
    (hbody : ∀ t ∈ body, t.kind ≠ .endMark) :
    settings.Accepts body value ↔ value.Fits 4 settings.nestingLimit body := by
  have hstream : TokenStream.ofTokens (body ++ [Token.mark]) = .ok ⟨[], body, Token.mark⟩ :=
    TokenStream.ofTokens_concat hbody rfl
  have hproper : TokenStream.Proper ⟨[], body, Token.mark⟩ := ⟨hbody, rfl⟩
  constructor
  · rintro ⟨s, hs, hread⟩
    rw [hstream] at hs
    cases hs
    exact (readExpression_eq_ok_iff_fits hproper).1 hread
  · intro h
    exact ⟨_, hstream, (readExpression_eq_ok_iff_fits hproper).2 h⟩

namespace Block

/-- Whether a block may stand in a program. Its tokens between the word in front and the semicolon
behind must be read as its expression. -/
def Allowed (settings : Settings) : Block → Prop
  | print word body value closing =>
    word.kind = .word .printWord ∧ settings.Accepts body value ∧
      closing.kind = .symbol .semicolon
  | closed body value closing =>
    settings.Accepts body value ∧ closing.kind = .symbol .semicolon
  | bare body value => settings.terminator = .optional ∧ settings.Accepts body value

def StartsWithMinus (b : Block) : Prop := ∃ t ∈ b.tokens.head?, t.kind = .symbol .minus

/-- No bare block is directly followed by one that starts with a minus. -/
def Separated : List Block → Prop
  | [] => True
  | bare _ _ :: later => (∀ next ∈ later.head?, ¬ next.StartsWithMinus) ∧ Separated later
  | _ :: later => Separated later

/-- The tokens `w` cut into blocks, none of them left over. -/
structure IsSplit (settings : Settings) (w : List Token) (blocks : List Block) : Prop where
  tokens_eq : blocks.flatMap tokens = w
  allowed : ∀ b ∈ blocks, b.Allowed settings

variable {settings : Settings} {b c : Block} {blocks other : List Block} {w : List Token}

theorem allowed_iff_fits (hb : ∀ t ∈ b.tokens, t.kind ≠ .endMark) :
    b.Allowed settings ↔ b.Fits settings := by
  cases b with
  | print word body value closing =>
    have hbody : ∀ t ∈ body, t.kind ≠ .endMark := fun t ht => hb t (by simp [tokens, ht])
    simp only [Allowed, Fits, Settings.accepts_iff_fits hbody]
  | closed body value closing =>
    have hbody : ∀ t ∈ body, t.kind ≠ .endMark := fun t ht => hb t (by simp [tokens, ht])
    simp only [Allowed, Fits, Settings.accepts_iff_fits hbody]
  | bare body value =>
    have hbody : ∀ t ∈ body, t.kind ≠ .endMark := hb
    simp only [Allowed, Fits, Settings.accepts_iff_fits hbody]

theorem isSplit_iff (hw : ∀ t ∈ w, t.kind ≠ .endMark) :
    IsSplit settings w blocks ↔
      blocks.flatMap tokens = w ∧ ∀ b ∈ blocks, b.Fits settings := by
  have hall : blocks.flatMap tokens = w → ∀ b ∈ blocks, ∀ t ∈ b.tokens, t.kind ≠ .endMark := by
    rintro rfl b hb t ht
    exact hw t (List.mem_flatMap.2 ⟨b, hb, ht⟩)
  constructor
  · rintro ⟨htokens, hallowed⟩
    exact ⟨htokens, fun b hb => (allowed_iff_fits (hall htokens b hb)).1 (hallowed b hb)⟩
  · rintro ⟨htokens, hfits⟩
    exact ⟨htokens, fun b hb => (allowed_iff_fits (hall htokens b hb)).2 (hfits b hb)⟩

theorem Fits.head (h : b.Fits settings) :
    ∃ t rest, b.tokens = t :: rest ∧ (t.kind = .word .printWord ∨ t.kind ∈ starters) := by
  cases b with
  | print word body value closing => exact ⟨word, _, rfl, .inl h.1⟩
  | closed body value closing =>
    obtain ⟨t, rest, rfl, ht⟩ := h.1.written.head h.1.canonical
    exact ⟨t, _, rfl, .inr ht⟩
  | bare body value =>
    obtain ⟨t, rest, rfl, ht⟩ := h.2.written.head h.2.canonical
    exact ⟨t, _, rfl, .inr ht⟩

/-- In front of a block that does not start with a minus every other block ends. -/
theorem stopsAt_of_head {t : Token} (ht : t.kind = .word .printWord ∨ t.kind ∈ starters)
    (hminus : t.kind ≠ .symbol .minus) : b.StopsAt t := by
  have hstops : t.Ends 4 ∧ t.kind ≠ .symbol .semicolon := by
    rcases ht with hword | hstarter
    · rw [hword]
      exact ⟨Token.ends_of_tier?_eq_none (by rw [hword]; rfl) 4, by simp⟩
    · constructor
      · intro m hm
        exact absurd (eq_minus_of_starter hstarter hm) hminus
      · intro hsemicolon
        rw [hsemicolon] at hstarter
        exact absurd hstarter (by decide)
  cases b with
  | print word body value closing => trivial
  | closed body value closing => trivial
  | bare body value => exact hstops

theorem stopsAt_of_endMark {t : Token} (ht : t.kind = .endMark) : b.StopsAt t := by
  cases b with
  | print word body value closing => trivial
  | closed body value closing => trivial
  | bare body value =>
    exact ⟨Token.ends_of_tier?_eq_none (by rw [ht]; rfl) 4, by rw [ht]; simp⟩

theorem separated_cons (h : Separated (b :: blocks)) : Separated blocks := by
  cases b with
  | print word body value closing => exact h
  | closed body value closing => exact h
  | bare body value => exact h.2

theorem chain_of_separated {t : Token} (ht : t.kind = .endMark)
    (hfits : ∀ b ∈ blocks, b.Fits settings) (h : Separated blocks) : Chain settings blocks t := by
  induction blocks with
  | nil => trivial
  | cons b later ih =>
    refine ⟨hfits b List.mem_cons_self, ?_,
      ih (fun c hc => hfits c (List.mem_cons_of_mem b hc)) (separated_cons h)⟩
    cases later with
    | nil => exact stopsAt_of_endMark ht
    | cons next rest =>
      obtain ⟨u, more, htokens, hu⟩ := (hfits next (by simp)).head
      rw [List.flatMap_cons, htokens]
      cases b with
      | print word body value closing => trivial
      | closed body value closing => trivial
      | bare body value =>
        apply stopsAt_of_head hu
        intro hminus
        exact h.1 next rfl ⟨u, by rw [htokens]; rfl, hminus⟩

theorem Chain.separated {t : Token} (h : Chain settings blocks t) : Separated blocks := by
  induction blocks with
  | nil => trivial
  | cons b later ih =>
    obtain ⟨hb, hstop, hlater⟩ := h
    cases b with
    | print word body value closing => exact ih hlater
    | closed body value closing => exact ih hlater
    | bare body value =>
      refine ⟨?_, ih hlater⟩
      rintro next hnext ⟨u, hu, hminus⟩
      obtain ⟨rest, rfl⟩ : ∃ rest, later = next :: rest := by
        cases later with
        | nil => cases hnext
        | cons c rest => cases hnext; exact ⟨rest, rfl⟩
      have hhead : (List.flatMap tokens (next :: rest)).headD t = u := by
        cases htokens : next.tokens with
        | nil => rw [htokens] at hu; cases hu
        | cons first more =>
          rw [htokens] at hu
          cases hu
          rw [List.flatMap_cons, htokens]
          rfl
      rw [hhead] at hstop
      have hnone := Token.ends_four_iff.1 hstop.1
      rw [hminus] at hnone
      cases hnone

/-- A block without its own semicolon, joined with the block behind it. -/
def join (body : List Token) (value : Expr) : Block → Block
  | print word rest other closing => print word rest other closing
  | closed rest other closing => closed (body ++ rest) (value.absorb other) closing
  | bare rest other => bare (body ++ rest) (value.absorb other)

section Join

variable {body : List Token} {value : Expr} {next : Block}

theorem Fits.not_print (h : next.Fits settings) (hminus : next.StartsWithMinus) :
    (∃ rest other closing, next = closed rest other closing) ∨
      ∃ rest other, next = bare rest other := by
  cases next with
  | print word rest other closing =>
    obtain ⟨t, ht, hminus⟩ := hminus
    cases ht
    rw [h.1] at hminus
    cases hminus
  | closed rest other closing => exact .inl ⟨rest, other, closing, rfl⟩
  | bare rest other => exact .inr ⟨rest, other, rfl⟩

theorem tokens_join (h : next.Fits settings) (hminus : next.StartsWithMinus) :
    (join body value next).tokens = body ++ next.tokens := by
  rcases h.not_print hminus with ⟨rest, other, closing, rfl⟩ | ⟨rest, other, rfl⟩
  · exact List.append_assoc body rest [closing]
  · rfl

theorem Fits.join (hbare : (bare body value).Fits settings) (h : next.Fits settings)
    (hminus : next.StartsWithMinus) : (join body value next).Fits settings := by
  obtain ⟨hoptional, hvalue⟩ := hbare
  rcases h.not_print hminus with ⟨rest, other, closing, rfl⟩ | ⟨rest, other, rfl⟩
  · obtain ⟨hother, hclosing⟩ := h
    obtain ⟨first, more, rfl, -⟩ := hother.written.head hother.canonical
    obtain ⟨t, ht, hkind⟩ := hminus
    exact ⟨hvalue.absorb hother (by intro u hu; cases hu; cases ht; exact hkind), hclosing⟩
  · obtain ⟨-, hother⟩ := h
    obtain ⟨first, more, rfl, -⟩ := hother.written.head hother.canonical
    obtain ⟨t, ht, hkind⟩ := hminus
    exact ⟨hoptional, hvalue.absorb hother (by intro u hu; cases hu; cases ht; exact hkind)⟩

theorem Separated.join (h : Separated (next :: blocks)) (hfits : next.Fits settings)
    (hminus : next.StartsWithMinus) : Separated (join body value next :: blocks) := by
  rcases hfits.not_print hminus with ⟨rest, other, closing, rfl⟩ | ⟨rest, other, rfl⟩
  · exact h
  · exact h

end Join

/-- Joining blocks from the right leaves the only split of its kind, with fewer blocks unless
there was nothing to join. -/
theorem exists_separated (hfits : ∀ b ∈ blocks, b.Fits settings) :
    ∃ joined : List Block, joined.flatMap tokens = blocks.flatMap tokens ∧
      (∀ b ∈ joined, b.Fits settings) ∧ Separated joined ∧
      (joined = blocks ∨ joined.length < blocks.length) := by
  induction blocks with
  | nil => exact ⟨[], rfl, hfits, trivial, .inl rfl⟩
  | cons b later ih =>
    have hb : b.Fits settings := hfits b List.mem_cons_self
    obtain ⟨joined, htokens, hjoined, hseparated, hlength⟩ :=
      ih fun c hc => hfits c (List.mem_cons_of_mem b hc)
    have hkeep : Separated (b :: joined) → ∃ all : List Block,
        all.flatMap tokens = (b :: later).flatMap tokens ∧ (∀ b ∈ all, b.Fits settings) ∧
        Separated all ∧ (all = b :: later ∨ all.length < (b :: later).length) := by
      intro h
      refine ⟨b :: joined, by rw [List.flatMap_cons, List.flatMap_cons, htokens], ?_, h, ?_⟩
      · intro c hc
        rcases List.mem_cons.1 hc with rfl | hc
        · exact hb
        · exact hjoined c hc
      · rcases hlength with rfl | hlt
        · exact .inl rfl
        · exact .inr (Nat.succ_lt_succ hlt)
    cases b with
    | print word body value closing => exact hkeep hseparated
    | closed body value closing => exact hkeep hseparated
    | bare body value =>
      cases joined with
      | nil => exact hkeep ⟨fun _ h => (nomatch h), trivial⟩
      | cons next rest =>
        by_cases hminus : next.StartsWithMinus
        · have hnext : next.Fits settings := hjoined next List.mem_cons_self
          refine ⟨join body value next :: rest, ?_, ?_, hseparated.join hnext hminus, .inr ?_⟩
          · rw [List.flatMap_cons, List.flatMap_cons, ← htokens, tokens_join hnext hminus,
              List.flatMap_cons, List.append_assoc]
            rfl
          · intro c hc
            rcases List.mem_cons.1 hc with rfl | hc
            · exact hb.join hnext hminus
            · exact hjoined c (List.mem_cons_of_mem next hc)
          · rcases hlength with heq | hlt
            · rw [← heq]
              exact Nat.lt_succ_self _
            · exact Nat.lt_succ_of_lt hlt
        · apply hkeep
          refine ⟨?_, hseparated⟩
          rintro c hc
          cases hc
          exact hminus

/-- A block is determined by its tokens and its statement. -/
theorem Fits.eq_of_tokens (hb : b.Fits settings) (hc : c.Fits settings)
    (htokens : b.tokens = c.tokens) (hstatement : b.statement = c.statement) : b = c := by
  have hne : ∀ {body rest : List Token} {value : Expr} {closing : Token},
      value.Fits 4 settings.nestingLimit body → closing.kind = .symbol .semicolon →
      body ≠ rest ++ [closing] := by
    rintro body rest value closing hvalue hclosing rfl
    exact hvalue.ne_semicolon closing (by simp) hclosing
  cases b with
  | print word body value closing =>
    cases c with
    | print word' body' value' closing' =>
      cases hstatement
      simp only [tokens, List.cons_append, List.cons.injEq] at htokens
      obtain ⟨rfl, hrest⟩ := htokens
      obtain ⟨rfl, hclosing⟩ := List.append_inj' hrest rfl
      cases hclosing
      rfl
    | closed body' value' closing' => cases hstatement
    | bare body' value' => cases hstatement
  | closed body value closing =>
    cases c with
    | print word' body' value' closing' => cases hstatement
    | closed body' value' closing' =>
      cases hstatement
      obtain ⟨rfl, hclosing⟩ := List.append_inj' htokens rfl
      cases hclosing
      rfl
    | bare body' value' => exact absurd htokens.symm (hne hc.2 hb.2)
  | bare body value =>
    cases c with
    | print word' body' value' closing' => cases hstatement
    | closed body' value' closing' => exact absurd htokens (hne hb.2 hc.2)
    | bare body' value' =>
      cases hstatement
      cases htokens
      rfl

/-- The chain of a stream is the only one. -/
theorem Chain.unique {t : Token} (h : Chain settings blocks t) (g : Chain settings other t)
    (htokens : blocks.flatMap tokens = other.flatMap tokens) : blocks = other := by
  induction blocks generalizing other with
  | nil =>
    cases other with
    | nil => rfl
    | cons c later =>
      obtain ⟨u, rest, hc, -⟩ := g.1.head
      rw [List.flatMap_cons, hc] at htokens
      cases htokens
  | cons b later ih =>
    cases other with
    | nil =>
      obtain ⟨u, rest, hb, -⟩ := h.1.head
      rw [List.flatMap_cons, hb] at htokens
      cases htokens
    | cons c others =>
      obtain ⟨hb, hstop, hlater⟩ := h
      obtain ⟨hc, gstop, hothers⟩ := g
      -- both blocks are what is read first of one and the same stream
      have hb_after : TokenStream.After ⟨[], (b :: later).flatMap tokens, t⟩ b.tokens _ :=
        TokenStream.after_of_pending_eq rfl
      have hc_after : TokenStream.After ⟨[], (b :: later).flatMap tokens, t⟩ c.tokens _ :=
        TokenStream.after_of_pending_eq htokens
      have hread := (statement_of_fits hb hb_after hstop).symm.trans
        (statement_of_fits hc hc_after gstop)
      obtain ⟨hstatement, hrest⟩ := Reading.done.inj hread
      obtain ⟨hpast, hpending, -⟩ := TokenStream.mk.inj hrest
      have heq : b.tokens = c.tokens :=
        List.reverse_inj.1 (List.append_cancel_right hpast)
      rw [hb.eq_of_tokens hc heq hstatement, ih hlater hothers hpending]

end Block

variable {settings : Settings} {s : TokenStream} {blocks : List Block}

/-- Separated blocks are read as they stand. -/
theorem readProgram_of_separated (hs : s.Proper)
    (htokens : blocks.flatMap Block.tokens = s.pending) (hfits : ∀ b ∈ blocks, b.Fits settings)
    (hseparated : Block.Separated blocks) :
    readProgram settings s = .ok (blocks.map Block.statement) := by
  apply (readProgram_eq_ok_iff_chain hs).2
  exact ⟨blocks, Block.chain_of_separated hs.endMark_eq hfits hseparated, htokens.symm, rfl⟩

/-- Whatever can be split into blocks is read. -/
theorem exists_readProgram_eq_ok (hs : s.Proper)
    (htokens : blocks.flatMap Block.tokens = s.pending) (hfits : ∀ b ∈ blocks, b.Fits settings) :
    ∃ statements, readProgram settings s = .ok statements := by
  obtain ⟨joined, hjoinedTokens, hjoined, hseparated, -⟩ := Block.exists_separated hfits
  exact ⟨_, readProgram_of_separated hs (hjoinedTokens.trans htokens) hjoined hseparated⟩

/-- A program is read exactly if it can be split into blocks in some way. What is read is the one
split of which no two blocks could be joined, and every other split has more blocks. -/
theorem readProgram_eq_ok_iff_split {tokens : List Token} {s : TokenStream}
    (h : TokenStream.ofTokens tokens = .ok s) (settings : Settings) :
    ((∃ statements, readProgram settings s = .ok statements) ↔
      ∃ blocks, Block.IsSplit settings (tokens.takeWhile (·.kind ≠ .endMark)) blocks) ∧
    ∀ statements, readProgram settings s = .ok statements →
      ∃ blocks, Block.IsSplit settings (tokens.takeWhile (·.kind ≠ .endMark)) blocks ∧
        Block.Separated blocks ∧ blocks.map Block.statement = statements ∧
        ∀ other, Block.IsSplit settings (tokens.takeWhile (·.kind ≠ .endMark)) other →
          other ≠ blocks → ¬ Block.Separated other ∧ blocks.length < other.length := by
  have hs : s.Proper := (TokenStream.ofTokens_eq_ok h).2.1
  rw [← TokenStream.pending_eq_takeWhile h]
  have hread : ∀ statements, readProgram settings s = .ok statements →
      ∃ blocks, Block.IsSplit settings s.pending blocks ∧ Block.Separated blocks ∧
        blocks.map Block.statement = statements ∧ Block.Chain settings blocks s.endMark := by
    intro statements hread
    obtain ⟨blocks, hchain, hpending, rfl⟩ := (readProgram_eq_ok_iff_chain hs).1 hread
    exact ⟨blocks, (Block.isSplit_iff hs.pending_ne).2 ⟨hpending.symm, hchain.fits⟩,
      hchain.separated, rfl, hchain⟩
  refine ⟨⟨?_, ?_⟩, ?_⟩
  · rintro ⟨statements, hok⟩
    obtain ⟨blocks, hsplit, -⟩ := hread statements hok
    exact ⟨blocks, hsplit⟩
  · rintro ⟨blocks, hsplit⟩
    obtain ⟨htokens, hfits⟩ := (Block.isSplit_iff hs.pending_ne).1 hsplit
    exact exists_readProgram_eq_ok hs htokens hfits
  · intro statements hok
    obtain ⟨blocks, hsplit, hseparated, hstatements, hchain⟩ := hread statements hok
    refine ⟨blocks, hsplit, hseparated, hstatements, ?_⟩
    intro other hother hne
    obtain ⟨htokens, hfits⟩ := (Block.isSplit_iff hs.pending_ne).1 hother
    have hunique : ∀ joined : List Block, joined.flatMap Block.tokens = s.pending →
        (∀ b ∈ joined, b.Fits settings) → Block.Separated joined → joined = blocks := by
      intro joined hjoinedTokens hjoined hjoinedSeparated
      have hjoinedChain := Block.chain_of_separated hs.endMark_eq hjoined hjoinedSeparated
      exact hjoinedChain.unique hchain (hjoinedTokens.trans hsplit.tokens_eq.symm)
    refine ⟨fun hotherSeparated => hne (hunique other htokens hfits hotherSeparated), ?_⟩
    obtain ⟨joined, hjoinedTokens, hjoined, hjoinedSeparated, hlength⟩ :=
      Block.exists_separated hfits
    have hjoinedEq := hunique joined (hjoinedTokens.trans htokens) hjoined hjoinedSeparated
    subst hjoinedEq
    exact hlength.resolve_left (Ne.symm hne)

/-- Two bare expressions are read as one where the second starts with a minus. -/
theorem readProgram_nil_minus_nil :
    ∃ s statements, TokenStream.ofTokens [Word.nilWord.token, Symbol.minus.token,
        Word.nilWord.token, Token.mark] = .ok s ∧
      readProgram {} s = .ok statements ∧ statements.length < 2 := by
  have h : TokenStream.ofTokens [Word.nilWord.token, Symbol.minus.token, Word.nilWord.token,
    Token.mark] = .ok _ := rfl
  obtain ⟨hiff, hread⟩ := readProgram_eq_ok_iff_split h {}
  have hfirst : (Expr.literal .nil).Fits 4 128 [Word.nilWord.token] := .literal (.nil rfl)
  have hsecond : (Expr.unary Symbol.minus.token (.literal .nil)).Fits 4 128
      [Symbol.minus.token, Word.nilWord.token] := .unary (.inr rfl) (.literal (.nil rfl))
  have hsplit : Block.IsSplit {} [Word.nilWord.token, Symbol.minus.token, Word.nilWord.token]
      [.bare [Word.nilWord.token] (.literal .nil), .bare [Symbol.minus.token, Word.nilWord.token]
        (.unary Symbol.minus.token (.literal .nil))] := by
    apply (Block.isSplit_iff (by decide)).2
    refine ⟨rfl, ?_⟩
    intro b hb
    simp only [List.mem_cons, List.not_mem_nil, or_false] at hb
    rcases hb with rfl | rfl
    · exact ⟨rfl, hfirst⟩
    · exact ⟨rfl, hsecond⟩
  obtain ⟨statements, hok⟩ := hiff.2 ⟨_, hsplit⟩
  obtain ⟨blocks, -, hseparated, rfl, hother⟩ := hread statements hok
  refine ⟨_, _, h, hok, ?_⟩
  rw [List.length_map]
  refine (hother _ hsplit ?_).2
  rintro rfl
  exact hseparated.1 _ rfl ⟨_, rfl, rfl⟩

end LoxSyntax
