import LoxSyntax.Proofs.Completions

/-!
Where the first fault lies. It lies at the first token that nothing readable goes on with, so it
depends on no token behind that one, and what stands in front of it can always be completed. A
nesting that is too deep is the exception: it is found behind the token that opens it.
-/

namespace LoxSyntax

/-- What a stream can be read as. -/
inductive Entry
  | expression
  | program

namespace Entry

variable {settings : Settings} {s rest : TokenStream} {entry : Entry} {cause : SyntaxFault}
  {w : List Token} {t : Token} {m : Nat}

/-- Whether all of a stream is read. -/
def Accepts (settings : Settings) (s : TokenStream) : Entry → Prop
  | expression => ∃ e, readExpression settings s = .ok e
  | program => ∃ statements, readProgram settings s = .ok statements

/-- The first diagnostic of a stream that is not read. -/
def diagnostic? (settings : Settings) (s : TokenStream) : Entry → Option (Diagnostic SyntaxFault)
  | expression =>
    match readExpression settings s with
    | .ok _ => none
    | .error d => some d
  | program => (reported (readProgram settings s)).head?

/-- The first fault of a stream, with what is left of the stream there. -/
def stuck? (settings : Settings) (s : TokenStream) : Entry → Option (SyntaxFault × TokenStream)
  | expression => (Grammar.wholeExpression settings.nestingLimit s).stuck?
  | program => firstStuck? (attempts settings.statement s)

/-- The tokens `w` begin something readable that cannot go on with `t`. -/
def Breaks (settings : Settings) (w : List Token) (t : Token) (cause : SyntaxFault) : Entry → Prop
  | expression => Grammar.WholeBreaks settings.nestingLimit w t cause
  | program => ProgramBreaks settings w t cause

theorem accepts_iff : entry.Accepts settings s ↔ entry.stuck? settings s = none := by
  cases entry with
  | expression =>
    show (∃ e, readExpression settings s = .ok e) ↔ _
    unfold readExpression stuck?
    cases Grammar.wholeExpression settings.nestingLimit s with
    | done e rest => exact ⟨fun _ => rfl, fun _ => ⟨e, rfl⟩⟩
    | stuck cause rest => exact ⟨fun ⟨_, h⟩ => (nomatch h), fun h => (nomatch h)⟩
  | program =>
    constructor
    · rintro ⟨statements, h⟩
      exact (outcome_eq_ok_iff.1 h).1
    · intro h
      exact ⟨_, outcome_eq_ok_iff.2 ⟨h, rfl⟩⟩

theorem diagnostic?_eq : entry.diagnostic? settings s =
    (entry.stuck? settings s).map fun (cause, rest) => rest.peek.diagnostic cause := by
  cases entry with
  | expression =>
    unfold diagnostic? stuck? readExpression
    cases Grammar.wholeExpression settings.nestingLimit s with
    | done e rest => rfl
    | stuck cause rest => rfl
  | program => exact head?_reported_outcome (attempts settings.statement s)

theorem stuck?_eq_some_iff (hs : s.Proper) : entry.stuck? settings s = some (cause, rest) ↔
    ∃ w, s.After w rest ∧ entry.Breaks settings w rest.peek cause := by
  cases entry with
  | expression =>
    apply Iff.trans _ (Grammar.wholeExpression_eq_stuck_iff hs)
    unfold stuck?
    cases Grammar.wholeExpression settings.nestingLimit s with
    | done e rest => exact ⟨fun h => (nomatch h), fun h => (nomatch h)⟩
    | stuck found behind => simp [Reading.stuck?]
  | program => exact firstStuck?_eq_some_iff hs

theorem Breaks.at_limit (h : entry.Breaks settings w t (.nestedDeeperThan m)) (other : Token) :
    entry.Breaks settings w other (.nestedDeeperThan m) := by
  cases entry with
  | expression => exact Grammar.WholeBreaks.at_limit h other
  | program => exact ProgramBreaks.at_limit h other

theorem Breaks.ne_nil (h : entry.Breaks settings w t (.nestedDeeperThan m)) : w ≠ [] := by
  cases entry with
  | expression => exact Grammar.WholeBreaks.ne_nil h
  | program => exact ProgramBreaks.ne_nil h

/-- What breaks off has a completion that is read, a token that opens a level too many apart. -/
theorem Breaks.exists_accepts (h : entry.Breaks settings w t cause) :
    ∃ later q, TokenStream.ofTokens (viable cause w ++ later ++ [Token.mark]) = .ok q ∧
      entry.Accepts settings q := by
  have hmark : Token.mark.kind = .endMark := rfl
  cases entry with
  | expression =>
    obtain ⟨later, e, he⟩ := Grammar.WholeBreaks.exists_completion h
    have hstream := TokenStream.ofTokens_concat he.ne_endMark hmark
    have hproper := (TokenStream.ofTokens_eq_ok hstream).2.1
    exact ⟨later, _, hstream, e, (readExpression_eq_ok_iff_fits hproper).2 he⟩
  | program =>
    obtain ⟨later, blocks, htokens, hfits⟩ := ProgramBreaks.exists_completion h
    have hne : ∀ t ∈ viable cause w ++ later, t.kind ≠ .endMark := by
      intro t ht
      rw [← htokens] at ht
      obtain ⟨b, hb, ht⟩ := List.mem_flatMap.1 ht
      exact (hfits b hb).ne_endMark t ht
    have hstream := TokenStream.ofTokens_concat hne hmark
    have hproper := (TokenStream.ofTokens_eq_ok hstream).2.1
    exact ⟨later, _, hstream, exists_readProgram_eq_ok hproper htokens hfits⟩

/-- Where `w` is read, the token behind it decides whether it breaks off there. -/
theorem exists_stuck?_of_isPrefix {tokens : List Token}
    (h : TokenStream.ofTokens tokens = .ok s) (hw : ∀ t ∈ w, t.kind ≠ .endMark)
    (hbegins : w <+: tokens) :
    ∃ r, tokens[w.length]? = some r.peek ∧
      (entry.Breaks settings w r.peek cause → entry.stuck? settings s = some (cause, r)) := by
  have hs : s.Proper := (TokenStream.ofTokens_eq_ok h).2.1
  obtain ⟨r, hr⟩ := TokenStream.exists_after h hw hbegins
  exact ⟨r, (hr.place h).2.2, fun hbreaks => (stuck?_eq_some_iff hs).2 ⟨w, hr, hbreaks⟩⟩

/-- Nothing behind the token that cannot be read has a part in the first diagnostic. -/
theorem Breaks.diagnostic?_eq {other : List Token} {q : TokenStream}
    (h : entry.Breaks settings w t cause) (hother : TokenStream.ofTokens other = .ok q)
    (hw : ∀ u ∈ w, u.kind ≠ .endMark) (hbegins : w ++ [t] <+: other) :
    entry.diagnostic? settings q = some (t.diagnostic cause) := by
  have hwithin : w <+: other := (List.prefix_append w [t]).trans hbegins
  obtain ⟨p, hview, hstops⟩ := exists_stuck?_of_isPrefix hother hw hwithin
  have hpeek : p.peek = t := by
    obtain ⟨later, rfl⟩ := hbegins
    simpa using hview.symm
  rw [Entry.diagnostic?_eq, hstops (hpeek ▸ h), ← hpeek]
  rfl

/-- Behind a token that opens a level too many nothing can follow. -/
theorem Breaks.not_accepts {other : List Token} {q : TokenStream}
    (h : entry.Breaks settings w t (.nestedDeeperThan m))
    (hother : TokenStream.ofTokens other = .ok q) (hw : ∀ u ∈ w, u.kind ≠ .endMark)
    (hbegins : w <+: other) : ¬ entry.Accepts settings q := by
  intro haccepts
  obtain ⟨p, -, hstops⟩ := exists_stuck?_of_isPrefix hother hw hbegins
  have hstuck := hstops (h.at_limit p.peek)
  rw [accepts_iff.1 haccepts] at hstuck
  cases hstuck

end Entry

/-- The first fault is reported at the earliest token at which it can be found. Every stream that
is the same up to that token has the same first diagnostic. Without the token it can be completed,
and so it can without the token before where that one opens a level too many. -/
theorem exists_earliest_stuck {tokens : List Token} {s : TokenStream}
    (h : TokenStream.ofTokens tokens = .ok s) (settings : Settings) (entry : Entry)
    (hfail : ¬ entry.Accepts settings s) :
    ∃ cause r, entry.stuck? settings s = some (cause, r) ∧ tokens[r.index]? = some r.peek ∧
      entry.diagnostic? settings s = some (r.peek.diagnostic cause) ∧
      (∀ other q, TokenStream.ofTokens other = .ok q →
        other.take (r.index + 1) = tokens.take (r.index + 1) →
        entry.diagnostic? settings q = some (r.peek.diagnostic cause)) ∧
      ((∀ m, cause ≠ .nestedDeeperThan m) →
        ∃ later q, TokenStream.ofTokens (tokens.take r.index ++ later ++ [Token.mark]) = .ok q ∧
          entry.Accepts settings q) ∧
      (∀ m, cause = .nestedDeeperThan m →
        0 < r.index ∧
        (∃ later q, TokenStream.ofTokens (tokens.take (r.index - 1) ++ later ++ [Token.mark]) =
          .ok q ∧ entry.Accepts settings q) ∧
        ∀ other q, TokenStream.ofTokens other = .ok q → tokens.take r.index <+: other →
          ¬ entry.Accepts settings q) := by
  have hs : s.Proper := (TokenStream.ofTokens_eq_ok h).2.1
  have hsome : entry.stuck? settings s ≠ none := fun hnone => hfail (Entry.accepts_iff.2 hnone)
  obtain ⟨⟨cause, r⟩, hstuck⟩ := Option.ne_none_iff_exists'.1 hsome
  obtain ⟨w, hw, hbreaks⟩ := (Entry.stuck?_eq_some_iff hs).1 hstuck
  obtain ⟨hindex, hbegins, hpeek⟩ := hw.place h
  have hmarks : ∀ t ∈ w, t.kind ≠ .endMark := hw.kind_ne hs
  have htake : tokens.take w.length = w := (List.prefix_iff_eq_take.1 hbegins).symm
  refine ⟨cause, r, hstuck, hindex ▸ hpeek, ?_, ?_, ?_, ?_⟩
  · rw [Entry.diagnostic?_eq, hstuck]
    rfl
  · intro other q hother hsame
    have htaken : other.take (w.length + 1) = w ++ [r.peek] := by
      rw [← hindex, hsame, hindex, List.take_add_one, htake, hpeek]
      rfl
    exact hbreaks.diagnostic?_eq hother hmarks (htaken ▸ List.take_prefix _ other)
  · intro hcause
    rw [hindex, htake, ← viable_of_ne hcause w]
    exact hbreaks.exists_accepts
  · rintro m rfl
    have hpositive : 0 < w.length := List.length_pos_iff.2 hbreaks.ne_nil
    refine ⟨by omega, ?_, ?_⟩
    · have hshort : (tokens.take w.length).take (w.length - 1) = tokens.take (w.length - 1) := by
        rw [List.take_take, Nat.min_eq_left (Nat.sub_le w.length 1)]
      rw [hindex, ← hshort, htake, ← List.dropLast_eq_take]
      exact hbreaks.exists_accepts
    · intro other q hother hwithin
      rw [hindex, htake] at hwithin
      exact hbreaks.not_accepts hother hmarks hwithin

/-- The second minus is one level too many, so it is given up for an operand of the first. -/
theorem exists_earliest_stuck_minus_minus :
    ∃ s, TokenStream.ofTokens [Symbol.minus.token, Symbol.minus.token, Word.nilWord.token,
        Token.mark] = .ok s ∧
      Entry.expression.diagnostic? { nestingLimit := 1 } s =
        some (Word.nilWord.token.diagnostic (.nestedDeeperThan 1)) ∧
      ∃ later q, TokenStream.ofTokens ([Symbol.minus.token] ++ later ++ [Token.mark]) = .ok q ∧
        Entry.expression.Accepts { nestingLimit := 1 } q := by
  have h : TokenStream.ofTokens [Symbol.minus.token, Symbol.minus.token, Word.nilWord.token,
      Token.mark] =
      .ok ⟨[], [Symbol.minus.token, Symbol.minus.token, Word.nilWord.token], Token.mark⟩ := rfl
  have hdeep : Grammar.Breaks 1 0 0 [Symbol.minus.token] Word.nilWord.token
      (.nestedDeeperThan 1) := .deep (by decide)
  have hbreaks : Entry.expression.Breaks { nestingLimit := 1 }
      [Symbol.minus.token, Symbol.minus.token] Word.nilWord.token (.nestedDeeperThan 1) :=
    .inl (.left (.left (.left (.left (.operand (.inr rfl) hdeep)))))
  have hstuck : Entry.expression.stuck? { nestingLimit := 1 }
      ⟨[], [Symbol.minus.token, Symbol.minus.token, Word.nilWord.token], Token.mark⟩ =
      some (.nestedDeeperThan 1, ⟨[Symbol.minus.token, Symbol.minus.token],
        [Word.nilWord.token], Token.mark⟩) :=
    (Entry.stuck?_eq_some_iff ⟨by decide, rfl⟩).2 ⟨_, ⟨rfl, rfl, rfl⟩, hbreaks⟩
  have hfail : ¬ Entry.expression.Accepts { nestingLimit := 1 }
      ⟨[], [Symbol.minus.token, Symbol.minus.token, Word.nilWord.token], Token.mark⟩ := by
    rw [Entry.accepts_iff, hstuck]
    exact Option.some_ne_none _
  obtain ⟨cause, r, hfound, -, hdiagnostic, -, -, hnested⟩ :=
    exists_earliest_stuck h { nestingLimit := 1 } .expression hfail
  rw [hstuck] at hfound
  cases hfound
  exact ⟨_, h, hdiagnostic, (hnested 1 rfl).2.1⟩

end LoxSyntax
