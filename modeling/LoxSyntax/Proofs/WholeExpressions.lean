import LoxSyntax.Program
import LoxSyntax.Proofs.Expressions

/-!
Streams that are one expression. Such a stream is read as the one canonical tree that it is a
writing of, and it is read unless the tree nests too deep. Where no expression takes up the whole
stream, reading stops where one breaks off, or behind one that something else follows.
-/

namespace LoxSyntax

/-- A symbol as a token, standing at the start of a text. -/
def Symbol.token (s : Symbol) : Token := ⟨.symbol s, s.spelling, none, .start⟩

/-- A word as a token, standing at the start of a text. -/
def Word.token (w : Word) : Token := ⟨.word w, w.spelling, none, .start⟩

/-- The end mark of an empty text. -/
def Token.mark : Token := ⟨.endMark, "", none, .start⟩

namespace Grammar

open TokenStream

variable {limit : Nat} {s rest : TokenStream}

theorem wholeExpression_eq_done_iff {e : Expr} (hs : s.Proper) :
    wholeExpression limit s = .done e rest ↔
      s.After s.pending rest ∧ e.Fits 4 limit s.pending := by
  constructor
  · intro h
    unfold wholeExpression at h
    cases hread : (expression limit).read s with
    | stuck cause behind =>
      rw [hread] at h
      cases h
    | done found behind =>
      rw [hread] at h
      obtain ⟨w, hw, he, -⟩ := (expression_eq_done_iff hs).1 hread
      unfold Reading.bind at h
      dsimp only at h
      split at h
      · rename_i hend
        cases h
        have hpending : s.pending = w := by
          rw [hw.1, List.isEmpty_iff.1 hend, List.append_nil]
        rw [hpending]
        exact ⟨hw, he⟩
      · cases h
  · rintro ⟨hw, he⟩
    have hend : rest.pending = [] := by
      have hlength := hw.length_pending
      exact List.eq_nil_of_length_eq_zero (by omega)
    have hpeek : rest.peek.kind = .endMark := (hw.proper hs).peek_eq_endMark_iff.2 hend
    have hends : rest.peek.Ends 4 := Token.ends_of_tier?_eq_none (by rw [hpeek]; rfl) 4
    have hread : (expression limit).read s = .done e rest :=
      (expression_eq_done_iff hs).2 ⟨_, hw, he, hends⟩
    unfold wholeExpression
    rw [hread]
    exact if_pos (List.isEmpty_iff.2 hend)

/-- The tokens `w` begin a stream that is one expression, but it cannot go on with `t`. -/
def WholeBreaks (limit : Nat) (w : List Token) (t : Token) (cause : SyntaxFault) : Prop :=
  Breaks limit 4 limit w t cause ∨
    cause = .trailingToken ∧ t.kind ≠ .endMark ∧ t.Ends 4 ∧ ∃ e : Expr, e.Fits 4 limit w

theorem wholeExpression_eq_stuck_iff {cause : SyntaxFault} (hs : s.Proper) :
    wholeExpression limit s = .stuck cause rest ↔
      ∃ w, s.After w rest ∧ WholeBreaks limit w rest.peek cause := by
  constructor
  · intro h
    unfold wholeExpression at h
    cases hread : (expression limit).read s with
    | stuck found behind =>
      rw [hread] at h
      cases h
      obtain ⟨w, hw, hbreaks⟩ := (expression_eq_stuck_iff hs).1 hread
      exact ⟨w, hw, .inl hbreaks⟩
    | done e behind =>
      rw [hread] at h
      obtain ⟨w, hw, he, hends⟩ := (expression_eq_done_iff hs).1 hread
      unfold Reading.bind at h
      dsimp only at h
      split at h
      · cases h
      · rename_i hend
        cases h
        have hmark : rest.peek.kind ≠ .endMark := fun hmark =>
          hend (List.isEmpty_iff.2 ((hw.proper hs).peek_eq_endMark_iff.1 hmark))
        exact ⟨w, hw, .inr ⟨rfl, hmark, hends, e, he⟩⟩
  · rintro ⟨w, hw, hbreaks | ⟨rfl, hmark, hends, e, he⟩⟩
    · have hread : (expression limit).read s = .stuck cause rest :=
        (expression_eq_stuck_iff hs).2 ⟨w, hw, hbreaks⟩
      unfold wholeExpression
      rw [hread]
      rfl
    · have hread : (expression limit).read s = .done e rest :=
        (expression_eq_done_iff hs).2 ⟨w, hw, he, hends⟩
      have hend : rest.atEnd ≠ true := fun hend =>
        hmark ((hw.proper hs).peek_eq_endMark_iff.2 (List.isEmpty_iff.1 hend))
      unfold wholeExpression
      rw [hread]
      exact if_neg hend

end Grammar

theorem readExpression_eq_ok_iff_fits {s : TokenStream} (hs : s.Proper) {settings : Settings}
    {e : Expr} :
    readExpression settings s = .ok e ↔ e.Fits 4 settings.nestingLimit s.pending := by
  have hall := s.after_pending
  constructor
  · intro h
    unfold readExpression Reading.result at h
    split at h
    · rename_i hread
      cases h
      exact ((Grammar.wholeExpression_eq_done_iff hs).1 hread).2
    · cases h
  · intro h
    have hread := (Grammar.wholeExpression_eq_done_iff hs).2 ⟨hall, h⟩
    rw [readExpression, hread]
    rfl

/-- A stream is read as an expression exactly if it is the writing of the expression, which is
canonical and nests no deeper than allowed. -/
theorem readExpression_eq_ok_iff {tokens : List Token} {s : TokenStream}
    (h : TokenStream.ofTokens tokens = .ok s) (settings : Settings) (e : Expr) :
    readExpression settings s = .ok e ↔
      e.Canonical ∧ e.nesting ≤ settings.nestingLimit ∧
        e.WrittenAs (tokens.takeWhile (·.kind ≠ .endMark)) := by
  rw [← TokenStream.pending_eq_takeWhile h,
    readExpression_eq_ok_iff_fits (TokenStream.ofTokens_eq_ok h).2.1]
  constructor
  · intro he
    exact ⟨he.canonical, he.nesting_le, he.written⟩
  · rintro ⟨hcanonical, hnesting, hwritten⟩
    exact ⟨hwritten, hcanonical, hcanonical.tier_le, hnesting⟩

theorem readExpression_minus_nil_star_grouping :
    ∃ s, TokenStream.ofTokens [Symbol.minus.token, Word.nilWord.token, Symbol.star.token,
        Symbol.leftParen.token, Word.trueWord.token, Symbol.rightParen.token, Token.mark,
        Symbol.slash.token, Token.mark] = .ok s ∧
      readExpression {} s = .ok (.binary (.unary Symbol.minus.token (.literal .nil))
        Symbol.star.token (.grouping (.literal (.boolean true)))) := by
  have h : TokenStream.ofTokens [Symbol.minus.token, Word.nilWord.token, Symbol.star.token,
        Symbol.leftParen.token, Word.trueWord.token, Symbol.rightParen.token, Token.mark,
        Symbol.slash.token, Token.mark] = .ok _ := rfl
  refine ⟨_, h, (readExpression_eq_ok_iff h {} _).2 ⟨?_, by decide, ?_⟩⟩
  · exact ⟨1, rfl, by decide, by decide, ⟨.inr rfl, rfl, trivial⟩, trivial⟩
  · exact .binary (.unary (.literal (.nil rfl))) (.grouping rfl (.literal (.truth rfl)) rfl)

end LoxSyntax
