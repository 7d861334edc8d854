import Mathlib
import LoxSyntax.Proofs.Moves
import LoxSyntax.Proofs.WholeExpressions

/-!
Programs whose semicolons are required, and the same programs with optional ones. A block that
ends in a semicolon is a statement either way, and a bare one only where it may go without, so a
program keeps its blocks exactly if none of them is bare, which the number of its semicolons tells.
Up to the first bare block both readings go on alike, and there the stricter one is stuck.
-/

namespace LoxSyntax

open Grammar

variable {limit : Nat} {settings : Settings} {b : Block} {blocks : List Block} {w : List Token}
  {t : Token} {cause : SyntaxFault} {s rest : TokenStream}

namespace Block

/-- Whether a block ends in a semicolon of its own. -/
def isClosed : Block → Bool
  | print _ _ _ _ => true
  | closed _ _ _ => true
  | bare _ _ => false

theorem stopsAt_of_isClosed (h : b.isClosed = true) (t : Token) : b.StopsAt t := by
  cases b with
  | print word body value closing => trivial
  | closed body value closing => trivial
  | bare body value => cases h

theorem fits_required_iff : b.Fits ⟨.required, limit⟩ ↔
    b.Fits ⟨.optional, limit⟩ ∧ b.isClosed = true := by
  cases b with
  | print word body value closing => exact ⟨fun h => ⟨h, rfl⟩, fun h => h.1⟩
  | closed body value closing => exact ⟨fun h => ⟨h, rfl⟩, fun h => h.1⟩
  | bare body value => exact ⟨fun h => (nomatch h.1), fun h => (nomatch h.2)⟩

theorem chain_required_iff : Chain ⟨.required, limit⟩ blocks t ↔
    Chain ⟨.optional, limit⟩ blocks t ∧ ∀ b ∈ blocks, b.isClosed = true := by
  induction blocks with
  | nil => exact ⟨fun _ => ⟨trivial, fun _ h => nomatch h⟩, fun _ => trivial⟩
  | cons first later ih =>
    simp only [Chain, fits_required_iff, ih, List.mem_cons, forall_eq_or_imp]
    constructor
    · rintro ⟨⟨hfirst, hclosed⟩, hstop, hlater, hrest⟩
      exact ⟨⟨hfirst, hstop, hlater⟩, hclosed, hrest⟩
    · rintro ⟨⟨hfirst, hstop, hlater⟩, hclosed, hrest⟩
      exact ⟨⟨hfirst, hclosed⟩, hstop, hlater, hrest⟩

theorem countP_semicolon_concat {value : Expr} {n room : Nat} {closing : Token}
    (h : value.Fits n room w) (hclosing : closing.kind = .symbol .semicolon) :
    (w ++ [closing]).countP (·.kind = .symbol .semicolon) = 1 := by
  have hbody : w.countP (·.kind = .symbol .semicolon) = 0 :=
    List.countP_eq_zero.2 fun u hu => by simpa using h.ne_semicolon u hu
  rw [List.countP_append, hbody, List.countP_cons, if_pos (decide_eq_true hclosing)]
  rfl

theorem Fits.countP_semicolon (h : b.Fits settings) :
    b.tokens.countP (·.kind = .symbol .semicolon) = if b.isClosed then 1 else 0 := by
  cases b with
  | print word body value closing =>
    have hword : ¬ decide (word.kind = .symbol .semicolon) = true := by rw [h.1]; decide
    rw [tokens, List.cons_append, List.countP_cons, if_neg hword,
      countP_semicolon_concat h.2.1 h.2.2]
    rfl
  | closed body value closing => exact countP_semicolon_concat h.1 h.2
  | bare body value =>
    exact List.countP_eq_zero.2 fun u hu => by simpa using h.2.ne_semicolon u hu

/-- A semicolon stands behind each block that is not bare, and nowhere else. -/
theorem countP_semicolons (h : ∀ b ∈ blocks, b.Fits settings) :
    (blocks.flatMap tokens).countP (·.kind = .symbol .semicolon) = blocks.countP isClosed := by
  induction blocks with
  | nil => rfl
  | cons b later ih =>
    have hlater := ih fun c hc => h c (List.mem_cons_of_mem b hc)
    rw [List.flatMap_cons, List.countP_append, hlater,
      (h b List.mem_cons_self).countP_semicolon, List.countP_cons, Nat.add_comm]

end Block

theorem StatementBreaks.required (h : StatementBreaks ⟨.optional, limit⟩ w t cause) :
    StatementBreaks ⟨.required, limit⟩ w t cause := by
  cases h with
  | value hword h => exact .value hword h
  | printed hword h => exact .printed hword h
  | unterminatedPrint hword h hends hclosing => exact .unterminatedPrint hword h hends hclosing
  | unterminated hrequired _ _ _ => cases hrequired

theorem StatementBreaks.optional (h : StatementBreaks ⟨.required, limit⟩ w t cause)
    (hcause : cause ≠ .unterminatedExpression) : StatementBreaks ⟨.optional, limit⟩ w t cause := by
  cases h with
  | value hword h => exact .value hword h
  | printed hword h => exact .printed hword h
  | unterminatedPrint hword h hends hclosing => exact .unterminatedPrint hword h hends hclosing
  | unterminated _ _ _ _ => exact absurd rfl hcause

/-- A block with a semicolon may stand in front of a program that breaks off. -/
theorem ProgramBreaks.cons (hb : b.Fits settings) (hclosed : b.isClosed = true)
    (h : ProgramBreaks settings w t cause) : ProgramBreaks settings (b.tokens ++ w) t cause := by
  obtain ⟨blocks, u, rfl, hchain, hbreaks, hend⟩ := h
  refine ⟨b :: blocks, u, ?_, ⟨hb, Block.stopsAt_of_isClosed hclosed _, hchain⟩, hbreaks, hend⟩
  rw [List.flatMap_cons, List.append_assoc]

/-- A bare block breaks off behind its expression where semicolons are required. -/
theorem programBreaks_bare {body : List Token} {value : Expr}
    (hb : (Block.bare body value).Fits ⟨.optional, limit⟩)
    (hstop : (Block.bare body value).StopsAt t) :
    ProgramBreaks ⟨.required, limit⟩ body t .unterminatedExpression :=
  ⟨[], body, rfl, trivial, .unterminated rfl hb.2 hstop.1 hstop.2,
    fun hnil => absurd hnil hb.tokens_ne_nil⟩

/-- A chain stays one where semicolons are required, or breaks off at its first bare block. -/
theorem Block.Chain.required_or_breaks (h : Chain ⟨.optional, limit⟩ blocks t) :
    Chain ⟨.required, limit⟩ blocks t ∨
      ∃ u v, blocks.flatMap tokens = u ++ v ∧
        ProgramBreaks ⟨.required, limit⟩ u (v.headD t) .unterminatedExpression := by
  induction blocks with
  | nil => exact .inl trivial
  | cons b later ih =>
    obtain ⟨hb, hstop, hlater⟩ := h
    cases hclosed : b.isClosed with
    | true =>
      rcases ih hlater with hchain | ⟨u, v, htokens, hbreaks⟩
      · exact .inl ⟨fits_required_iff.2 ⟨hb, hclosed⟩, hstop, hchain⟩
      · have hfits : b.Fits ⟨.required, limit⟩ := fits_required_iff.2 ⟨hb, hclosed⟩
        refine .inr ⟨b.tokens ++ u, v, ?_, hbreaks.cons hfits hclosed⟩
        rw [List.flatMap_cons, htokens, List.append_assoc]
    | false =>
      cases b with
      | print word body value closing => cases hclosed
      | closed body value closing => cases hclosed
      | bare body value => exact .inr ⟨body, later.flatMap tokens, rfl, programBreaks_bare hb hstop⟩

/-- What breaks off where semicolons are optional does so at the same token where they are
required, or in front of it behind a bare expression. -/
theorem ProgramBreaks.required (h : ProgramBreaks ⟨.optional, limit⟩ w t cause) :
    ProgramBreaks ⟨.required, limit⟩ w t cause ∨
      ∃ u v, w = u ++ v ∧
        ProgramBreaks ⟨.required, limit⟩ u (v.headD t) .unterminatedExpression := by
  obtain ⟨blocks, later, rfl, hchain, hbreaks, hend⟩ := h
  rcases hchain.required_or_breaks with hrequired | ⟨u, v, htokens, hbare⟩
  · exact .inl ⟨blocks, later, rfl, hrequired, hbreaks.required, hend⟩
  · refine .inr ⟨u, v ++ later, by rw [htokens, List.append_assoc], ?_⟩
    cases v with
    | nil => exact hbare
    | cons first more => exact hbare

theorem ProgramBreaks.optional (h : ProgramBreaks ⟨.required, limit⟩ w t cause)
    (hcause : cause ≠ .unterminatedExpression) : ProgramBreaks ⟨.optional, limit⟩ w t cause := by
  obtain ⟨blocks, u, hw, hchain, hbreaks, hend⟩ := h
  exact ⟨blocks, u, hw, (Block.chain_required_iff.1 hchain).1, hbreaks.optional hcause, hend⟩

/-- A program with optional semicolons is read with required ones, too, exactly if each of its
statements has one. -/
theorem readProgram_required_iff (hs : s.Proper) {statements : List Statement} :
    readProgram ⟨.required, limit⟩ s = .ok statements ↔
      readProgram ⟨.optional, limit⟩ s = .ok statements ∧
        s.pending.countP (·.kind = .symbol .semicolon) = statements.length := by
  rw [readProgram_eq_ok_iff_chain hs, readProgram_eq_ok_iff_chain hs]
  constructor
  · rintro ⟨blocks, hchain, hpending, rfl⟩
    obtain ⟨hoptional, hclosed⟩ := Block.chain_required_iff.1 hchain
    refine ⟨⟨blocks, hoptional, hpending, rfl⟩, ?_⟩
    rw [hpending, Block.countP_semicolons hchain.fits, List.length_map]
    exact List.countP_eq_length.2 hclosed
  · rintro ⟨⟨blocks, hchain, hpending, rfl⟩, hcount⟩
    rw [hpending, Block.countP_semicolons hchain.fits, List.length_map] at hcount
    have hclosed : ∀ b ∈ blocks, b.isClosed = true := List.countP_eq_length.1 hcount
    exact ⟨blocks, Block.chain_required_iff.2 ⟨hchain, hclosed⟩, hpending, rfl⟩

/-- The first diagnostic of a program that is not read is `d`, and it lies at the token with the
given index. -/
structure FirstFault (tokens : List Token) (settings : Settings) (s : TokenStream) (index : Nat)
    (d : Diagnostic SyntaxFault) : Prop where
  reported : (reported (readProgram settings s)).head? = some d
  place : (stuckPlaces (attempts settings.statement s)).head? = some (index, d.cause)
  token : tokens[index]?.map (·.diagnostic d.cause) = some d

theorem head?_stuckPlaces (history : List Attempt) :
    (stuckPlaces history).head? =
      (firstStuck? history).map fun (cause, rest) => (rest.index, cause) := by
  rw [stuckPlaces, List.head?_map, List.head?_filterMap, firstStuck?]

section Tokens

variable {tokens : List Token} {index : Nat} {d : Diagnostic SyntaxFault}

/-- The first fault is that of the first statement that is stuck. -/
theorem firstFault_iff (h : TokenStream.ofTokens tokens = .ok s) :
    FirstFault tokens settings s index d ↔
      ∃ cause rest, firstStuck? (attempts settings.statement s) = some (cause, rest) ∧
        index = rest.index ∧ d = rest.peek.diagnostic cause := by
  have hs : s.Proper := (TokenStream.ofTokens_eq_ok h).2.1
  constructor
  · rintro ⟨hreported, hplace, -⟩
    rw [readProgram, head?_reported_outcome] at hreported
    rw [head?_stuckPlaces] at hplace
    obtain ⟨⟨cause, rest⟩, hstuck, rfl⟩ := Option.map_eq_some_iff.1 hreported
    rw [hstuck] at hplace
    cases hplace
    exact ⟨cause, rest, hstuck, rfl, rfl⟩
  · rintro ⟨cause, rest, hstuck, rfl, rfl⟩
    obtain ⟨w, hw, -⟩ := (firstStuck?_eq_some_iff hs).1 hstuck
    obtain ⟨hindex, -, hpeek⟩ := hw.place h
    refine ⟨?_, ?_, ?_⟩
    · rw [readProgram, head?_reported_outcome, hstuck]
      rfl
    · rw [head?_stuckPlaces, hstuck]
      rfl
    · rw [hindex, hpeek]
      rfl

theorem exists_firstFault_iff (h : TokenStream.ofTokens tokens = .ok s) :
    (∃ faults, readProgram settings s = .error faults) ↔
      ∃ index d, FirstFault tokens settings s index d := by
  constructor
  · rintro ⟨faults, hread⟩
    cases hstuck : firstStuck? (attempts settings.statement s) with
    | none =>
      have hok : readProgram settings s = .ok _ := outcome_eq_ok_iff.2 ⟨hstuck, rfl⟩
      rw [hread] at hok
      cases hok
    | some place => exact ⟨_, _, (firstFault_iff h).2 ⟨place.1, place.2, hstuck, rfl, rfl⟩⟩
  · rintro ⟨index, d, hfault⟩
    cases hread : readProgram settings s with
    | ok statements =>
      have hreported := hfault.reported
      rw [hread] at hreported
      cases hreported
    | error faults => exact ⟨faults, rfl⟩

/-- Requiring semicolons brings the first fault forward, if anything. -/
theorem FirstFault.required (h : TokenStream.ofTokens tokens = .ok s)
    (hfault : FirstFault tokens ⟨.optional, limit⟩ s index d) :
    ∃ i e, FirstFault tokens ⟨.required, limit⟩ s i e ∧ i ≤ index := by
  have hs : s.Proper := (TokenStream.ofTokens_eq_ok h).2.1
  obtain ⟨cause, rest, hstuck, rfl, rfl⟩ := (firstFault_iff h).1 hfault
  obtain ⟨w, hw, hbreaks⟩ := (firstStuck?_eq_some_iff hs).1 hstuck
  rcases hbreaks.required with hsame | ⟨u, v, rfl, hbare⟩
  · have hrequired := (firstStuck?_eq_some_iff hs).2 ⟨w, hw, hsame⟩
    exact ⟨_, _, (firstFault_iff h).2 ⟨_, _, hrequired, rfl, rfl⟩, Nat.le_refl _⟩
  · obtain ⟨q, hq, hv⟩ := hw.split
    rw [← hv.peek_eq] at hbare
    have hrequired := (firstStuck?_eq_some_iff hs).2 ⟨u, hq, hbare⟩
    refine ⟨_, _, (firstFault_iff h).2 ⟨_, _, hrequired, rfl, rfl⟩, ?_⟩
    rw [hv.index_eq]
    exact Nat.le_add_right _ _

/-- A first fault other than a missing semicolon does not hang on semicolons being required. -/
theorem FirstFault.optional (h : TokenStream.ofTokens tokens = .ok s)
    (hfault : FirstFault tokens ⟨.required, limit⟩ s index d)
    (hcause : d.cause ≠ .unterminatedExpression) :
    FirstFault tokens ⟨.optional, limit⟩ s index d := by
  have hs : s.Proper := (TokenStream.ofTokens_eq_ok h).2.1
  obtain ⟨cause, rest, hstuck, rfl, rfl⟩ := (firstFault_iff h).1 hfault
  obtain ⟨w, hw, hbreaks⟩ := (firstStuck?_eq_some_iff hs).1 hstuck
  have hoptional := (firstStuck?_eq_some_iff hs).2 ⟨w, hw, hbreaks.optional hcause⟩
  exact (firstFault_iff h).2 ⟨_, _, hoptional, rfl, rfl⟩

/-- A program is read where semicolons are required exactly if it is read where they are optional
and has as many semicolons as statements, and it is then read alike. A program that fails where
they are optional fails where they are required, and there its first fault lies at the same token
or in front of it. Unless that first fault is a missing semicolon, it is the first one in both. -/
theorem required_optional_related {tokens : List Token} {s : TokenStream}
    (h : TokenStream.ofTokens tokens = .ok s) (limit : Nat) :
    (∀ statements, readProgram ⟨.required, limit⟩ s = .ok statements ↔
      readProgram ⟨.optional, limit⟩ s = .ok statements ∧
        (tokens.takeWhile (·.kind ≠ .endMark)).countP (·.kind = .symbol .semicolon) =
          statements.length) ∧
      (∀ faults, readProgram ⟨.optional, limit⟩ s = .error faults →
        ∃ others, readProgram ⟨.required, limit⟩ s = .error others ∧
          ∃ i d j e, FirstFault tokens ⟨.required, limit⟩ s i d ∧
            FirstFault tokens ⟨.optional, limit⟩ s j e ∧ i ≤ j) ∧
      ∀ i d, FirstFault tokens ⟨.required, limit⟩ s i d → d.cause ≠ .unterminatedExpression →
        FirstFault tokens ⟨.optional, limit⟩ s i d := by
  have hs : s.Proper := (TokenStream.ofTokens_eq_ok h).2.1
  rw [← TokenStream.pending_eq_takeWhile h]
  refine ⟨fun statements => readProgram_required_iff hs, ?_, fun i d => FirstFault.optional h⟩
  intro faults hread
  obtain ⟨j, e, he⟩ := (exists_firstFault_iff h).1 ⟨faults, hread⟩
  obtain ⟨i, d, hd, hle⟩ := FirstFault.required h he
  obtain ⟨others, hothers⟩ := (exists_firstFault_iff h).2 ⟨i, d, hd⟩
  exact ⟨others, hothers, i, d, j, e, hd, he, hle⟩

/-- The semicolon that is missing behind the first expression hides the fault behind it. -/
theorem required_optional_related_nil_grouping :
    ∃ s faults others, TokenStream.ofTokens [Word.nilWord.token, Symbol.leftParen.token,
        Symbol.semicolon.token, Token.mark] = .ok s ∧
      readProgram ⟨.optional, 128⟩ s = .error faults ∧
      readProgram ⟨.required, 128⟩ s = .error others ∧
      ∃ i d j e, FirstFault [Word.nilWord.token, Symbol.leftParen.token, Symbol.semicolon.token,
          Token.mark] ⟨.required, 128⟩ s i d ∧
        FirstFault [Word.nilWord.token, Symbol.leftParen.token, Symbol.semicolon.token,
          Token.mark] ⟨.optional, 128⟩ s j e ∧ i ≤ j := by
  have h : TokenStream.ofTokens [Word.nilWord.token, Symbol.leftParen.token,
      Symbol.semicolon.token, Token.mark] = .ok ⟨[], [Word.nilWord.token,
        Symbol.leftParen.token, Symbol.semicolon.token], Token.mark⟩ := rfl
  have hread : readProgram ⟨.optional, 128⟩ ⟨[], [Word.nilWord.token, Symbol.leftParen.token,
      Symbol.semicolon.token], Token.mark⟩ =
      .error [Symbol.semicolon.token.diagnostic (.unexpectedToken ";")] := by cbv
  obtain ⟨-, hfails, -⟩ := required_optional_related h 128
  obtain ⟨others, hothers, hplaces⟩ := hfails _ hread
  exact ⟨_, _, others, h, hread, hothers, hplaces⟩

end Tokens

end LoxSyntax
