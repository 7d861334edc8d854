import LoxSyntax.Proofs.Expressions

/-!
The tokens of expressions. No expression holds a semicolon or a word that begins a statement, and
neither does what is read of one that breaks off. Of the tokens that an expression can start with
only the minus is a binary operator as well.
-/

namespace LoxSyntax

namespace Grammar

/-- The kinds of tokens that an expression can hold. -/
def expressionKinds : List Kind :=
  starters ++ .symbol .rightParen :: binaryTiers.flatten.map .symbol

theorem mem_expressionKinds_of_starter {k : Kind} (h : k ∈ starters) : k ∈ expressionKinds :=
  List.mem_append_left _ h

theorem mem_expressionKinds_of_tier? {k : Kind} {n : Nat} (h : k.tier? = some n) :
    k ∈ expressionKinds := by
  cases k with
  | symbol s => cases s <;> first | decide | cases h
  | word w => cases h
  | identifier => cases h
  | string => cases h
  | number => cases h
  | endMark => cases h

/-- Semicolons stand only behind expressions. -/
theorem ne_semicolon_of_mem {k : Kind} (h : k ∈ expressionKinds) : k ≠ .symbol .semicolon := by
  rintro rfl
  exact absurd h (by decide)

theorem ne_endMark_of_mem {k : Kind} (h : k ∈ expressionKinds) : k ≠ .endMark := by
  rintro rfl
  exact absurd h (by decide)

theorem mem_starters_of_unary {k : Kind} (h : k = .symbol .bang ∨ k = .symbol .minus) :
    k ∈ starters := by
  rcases h with rfl | rfl
  · decide
  · decide

theorem mem_starters_of_denotes {t : Token} {v : Value} (h : t.Denotes v) : t.kind ∈ starters :=
  List.mem_append_left _ (List.mem_append_right _ (Token.denotes_iff.1 h).1)

/-- Of the tokens that can start an expression only a minus can also go on with one. -/
theorem eq_minus_of_starter {k : Kind} {n : Nat} (h : k ∈ starters) (htier : k.tier? = some n) :
    k = .symbol .minus := by
  cases k with
  | symbol s =>
    cases s <;> simp_all [starters, unaryOperators, literalKinds, Kind.tier?, Symbol.tier?]
  | word w => cases htier
  | identifier => cases htier
  | string => cases htier
  | number => cases htier
  | endMark => cases htier

end Grammar

open Grammar

namespace Expr

theorem WrittenAs.head {e : Expr} {w : List Token} (h : e.WrittenAs w) (hcanonical : e.Canonical) :
    ∃ t rest, w = t :: rest ∧ t.kind ∈ starters := by
  induction h with
  | literal h => exact ⟨_, [], rfl, mem_starters_of_denotes h⟩
  | grouping hopening h hclosing ih => exact ⟨_, _, rfl, by rw [hopening]; decide⟩
  | unary h ih => exact ⟨_, _, rfl, mem_starters_of_unary hcanonical.1⟩
  | binary hleft hright ihleft ihright =>
    obtain ⟨n, -, -, -, hcanonical, -⟩ := hcanonical
    obtain ⟨t, rest, rfl, ht⟩ := ihleft hcanonical
    exact ⟨t, _, rfl, ht⟩

theorem WrittenAs.kind_mem {e : Expr} {w : List Token} (h : e.WrittenAs w)
    (hcanonical : e.Canonical) : ∀ t ∈ w, t.kind ∈ expressionKinds := by
  induction h with
  | literal h =>
    intro t ht
    rw [List.mem_singleton.1 ht]
    exact mem_expressionKinds_of_starter (mem_starters_of_denotes h)
  | grouping hopening h hclosing ih =>
    intro t ht
    rw [List.cons_append, List.mem_cons, List.mem_append, List.mem_singleton] at ht
    rcases ht with rfl | ht | rfl
    · rw [hopening]; decide
    · exact ih hcanonical t ht
    · rw [hclosing]; decide
  | unary h ih =>
    intro t ht
    rcases List.mem_cons.1 ht with rfl | ht
    · exact mem_expressionKinds_of_starter (mem_starters_of_unary hcanonical.1)
    · exact ih hcanonical.2.2 t ht
  | binary hleft hright ihleft ihright =>
    obtain ⟨n, htier, -, -, hleftCanonical, hrightCanonical⟩ := hcanonical
    intro t ht
    rcases List.mem_append.1 ht with ht | ht
    · exact ihleft hleftCanonical t ht
    rcases List.mem_cons.1 ht with rfl | ht
    · exact mem_expressionKinds_of_tier? htier
    · exact ihright hrightCanonical t ht

theorem Fits.ne_semicolon {e : Expr} {n room : Nat} {w : List Token} (h : e.Fits n room w) :
    ∀ t ∈ w, t.kind ≠ .symbol .semicolon :=
  fun t ht => ne_semicolon_of_mem (h.written.kind_mem h.canonical t ht)

theorem Fits.ne_endMark {e : Expr} {n room : Nat} {w : List Token} (h : e.Fits n room w) :
    ∀ t ∈ w, t.kind ≠ .endMark :=
  fun t ht => ne_endMark_of_mem (h.written.kind_mem h.canonical t ht)

end Expr

namespace Grammar

variable {limit n room : Nat} {w : List Token} {t : Token} {cause : SyntaxFault}

theorem Breaks.head {first : Token} (h : Breaks limit n room (first :: w) t cause) :
    first.kind ∈ starters := by
  generalize hall : first :: w = all at h
  induction h generalizing w with
  | start h => cases hall
  | deep h =>
    cases hall
    rcases List.mem_append.1 h with hunary | hparen
    · exact mem_starters_of_unary (mem_unaryOperators_iff.1 hunary)
    · rw [List.mem_singleton.1 hparen]; decide
  | operand hoperator h ih => cases hall; exact mem_starters_of_unary hoperator
  | inner hopening h ih => cases hall; rw [hopening]; decide
  | unclosed hopening h hends hclosing => cases hall; rw [hopening]; decide
  | left h ih => exact ih hall
  | right hleft hoperator h ih =>
    obtain ⟨u, rest, rfl, hu⟩ := hleft.written.head hleft.canonical
    cases hall
    exact hu

theorem Breaks.kind_mem (h : Breaks limit n room w t cause) :
    ∀ u ∈ w, u.kind ∈ expressionKinds := by
  induction h with
  | start h => intro u hu; cases hu
  | deep h =>
    intro u hu
    rw [List.mem_singleton.1 hu]
    have hdeep : Breaks limit 0 0 [_] t (.nestedDeeperThan limit) := .deep h
    exact mem_expressionKinds_of_starter hdeep.head
  | operand hoperator h ih =>
    intro u hu
    rcases List.mem_cons.1 hu with rfl | hu
    · exact mem_expressionKinds_of_starter (mem_starters_of_unary hoperator)
    · exact ih u hu
  | inner hopening h ih =>
    intro u hu
    rcases List.mem_cons.1 hu with rfl | hu
    · rw [hopening]; decide
    · exact ih u hu
  | unclosed hopening h hends hclosing =>
    intro u hu
    rcases List.mem_cons.1 hu with rfl | hu
    · rw [hopening]; decide
    · exact h.written.kind_mem h.canonical u hu
  | left h ih => exact ih
  | right hleft hoperator h ih =>
    intro u hu
    rcases List.mem_append.1 hu with hu | hu
    · exact hleft.written.kind_mem hleft.canonical u hu
    rcases List.mem_cons.1 hu with rfl | hu
    · exact mem_expressionKinds_of_tier? hoperator
    · exact ih u hu

end Grammar

end LoxSyntax
