import LoxSyntax.Grammar

/-!
Canonical trees and how they are written. Of all trees that are written with the same tokens one
is canonical: its chains fold to the left, and a looser operator stands below a tighter one only
inside parentheses. A tree keeps its operator tokens, but of a literal only the value and of a
grouping no token at all, so how it is written is a relation.
-/

namespace LoxSyntax

/-- The tier of a binary operator. A lower tier binds tighter. -/
def Symbol.tier? : Symbol → Option Nat
  | .slash | .star => some 1
  | .minus | .plus => some 2
  | .greater | .greaterEqual | .less | .lessEqual => some 3
  | .bangEqual | .equalEqual => some 4
  | _ => none

def Kind.tier? : Kind → Option Nat
  | .symbol s => s.tier?
  | _ => none

theorem Kind.tier?_bounds {k : Kind} {n : Nat} (h : k.tier? = some n) : 1 ≤ n ∧ n ≤ 4 := by
  cases k with
  | symbol s =>
    cases s <;> simp_all [tier?, Symbol.tier?] <;> omega
  | word w => cases h
  | identifier => cases h
  | string => cases h
  | number => cases h
  | endMark => cases h

namespace Token

/-- What a token is as an expression of its own. -/
inductive Denotes (t : Token) : Value → Prop
  | falsehood (h : t.kind = .word .falseWord) : Denotes t (.boolean false)
  | truth (h : t.kind = .word .trueWord) : Denotes t (.boolean true)
  | nil (h : t.kind = .word .nilWord) : Denotes t .nil
  | literal {l : Literal} (hkind : t.kind = .number ∨ t.kind = .string)
      (h : t.literal = some l) : Denotes t (.ofLiteral l)
  | bare (hkind : t.kind = .number ∨ t.kind = .string) (h : t.literal = none) : Denotes t .nil

theorem denotes_iff {t : Token} {v : Value} :
    t.Denotes v ↔ t.kind ∈ literalKinds ∧ v = t.value := by
  constructor
  · intro h
    cases h with
    | falsehood h => simp [literalKinds, value, h]
    | truth h => simp [literalKinds, value, h]
    | nil h => simp [literalKinds, value, h]
    | literal hkind h => rcases hkind with hkind | hkind <;> simp [literalKinds, value, hkind, h]
    | bare hkind h => rcases hkind with hkind | hkind <;> simp [literalKinds, value, hkind, h]
  · rintro ⟨hkind, rfl⟩
    have hliteral : t.kind = .number ∨ t.kind = .string →
        t.Denotes ((t.literal.map Value.ofLiteral).getD .nil) := by
      intro h
      cases hl : t.literal with
      | none => exact .bare h hl
      | some l => exact .literal h hl
    simp only [literalKinds, List.mem_cons, List.not_mem_nil, or_false] at hkind
    rcases hkind with h | h | h | h | h
    · simpa [value, h] using Denotes.falsehood h
    · simpa [value, h] using Denotes.truth h
    · simpa [value, h] using Denotes.nil h
    · simpa [value, h] using hliteral (.inl h)
    · simpa [value, h] using hliteral (.inr h)

/-- Behind an expression of tier `n` the token goes on with no operator of that tier or below. -/
def Ends (n : Nat) (t : Token) : Prop := ∀ m, t.kind.tier? = some m → n < m

theorem Ends.mono {n m : Nat} {t : Token} (h : t.Ends n) (hle : m ≤ n) : t.Ends m :=
  fun k hk => Nat.lt_of_le_of_lt hle (h k hk)

theorem ends_of_tier? {n : Nat} {t : Token} (h : t.kind.tier? = some (n + 1)) : t.Ends n := by
  intro m hm
  rw [h] at hm
  cases hm
  exact Nat.lt_succ_self n

theorem ends_of_tier?_eq_none {t : Token} (h : t.kind.tier? = none) (n : Nat) : t.Ends n := by
  intro m hm
  rw [h] at hm
  cases hm

theorem ends_of_semicolon {t : Token} (h : t.kind = .symbol .semicolon) {n : Nat} : t.Ends n :=
  ends_of_tier?_eq_none (by rw [h]; rfl) n

theorem ends_zero (t : Token) : t.Ends 0 := fun _ hm => (Kind.tier?_bounds hm).1

/-- Behind a whole expression stands no binary operator. -/
theorem ends_four_iff {t : Token} : t.Ends 4 ↔ t.kind.tier? = none := by
  constructor
  · intro h
    cases htier : t.kind.tier? with
    | none => rfl
    | some n =>
      have hbounds := Kind.tier?_bounds htier
      have hlt := h n htier
      omega
  · intro h
    exact ends_of_tier?_eq_none h 4

end Token

namespace Expr

/-- The tier of the operator that holds a tree together, or zero where there is no such one. -/
def tier : Expr → Nat
  | binary _ operator _ => operator.kind.tier?.getD 0
  | _ => 0

/-- Nothing but a chain's own left part is as loose as the chain. -/
def Canonical : Expr → Prop
  | literal _ => True
  | grouping inner => inner.Canonical
  | unary operator operand =>
    (operator.kind = .symbol .bang ∨ operator.kind = .symbol .minus) ∧
      operand.tier = 0 ∧ operand.Canonical
  | binary left operator right =>
    ∃ n, operator.kind.tier? = some n ∧ left.tier ≤ n ∧ right.tier < n ∧
      left.Canonical ∧ right.Canonical

/-- The most groupings and unary operators, together, on a way from the root to a leaf. -/
def nesting : Expr → Nat
  | literal _ => 0
  | grouping inner => inner.nesting + 1
  | unary _ operand => operand.nesting + 1
  | binary left _ right => max left.nesting right.nesting

/-- The tokens that a tree is written with, operators between their operands. -/
inductive WrittenAs : Expr → List Token → Prop
  | literal {t : Token} {value : Value} (h : t.Denotes value) : WrittenAs (.literal value) [t]
  | grouping {opening closing : Token} {inner : Expr} {w : List Token}
      (hopening : opening.kind = .symbol .leftParen) (h : WrittenAs inner w)
      (hclosing : closing.kind = .symbol .rightParen) :
      WrittenAs (.grouping inner) (opening :: w ++ [closing])
  | unary {operator : Token} {operand : Expr} {w : List Token} (h : WrittenAs operand w) :
      WrittenAs (.unary operator operand) (operator :: w)
  | binary {left : Expr} {operator : Token} {right : Expr} {u v : List Token}
      (hleft : WrittenAs left u) (hright : WrittenAs right v) :
      WrittenAs (.binary left operator right) (u ++ operator :: v)

theorem Canonical.tier_le {e : Expr} (h : e.Canonical) : e.tier ≤ 4 := by
  cases e with
  | binary left operator right =>
    obtain ⟨n, hn, -⟩ := h
    have hbounds := Kind.tier?_bounds hn
    rw [tier, hn]
    exact hbounds.2
  | literal value => exact Nat.zero_le 4
  | grouping inner => exact Nat.zero_le 4
  | unary operator operand => exact Nat.zero_le 4

/-- A canonical tree written as `w`, of a tier up to `n` and nested up to `room` deep. -/
structure Fits (n room : Nat) (e : Expr) (w : List Token) : Prop where
  written : e.WrittenAs w
  canonical : e.Canonical
  tier_le : e.tier ≤ n
  nesting_le : e.nesting ≤ room

namespace Fits

variable {n m room : Nat} {e left right : Expr} {operator : Token} {u v w : List Token}

theorem mono (h : e.Fits n room w) (hle : n ≤ m) : e.Fits m room w :=
  { h with tier_le := Nat.le_trans h.tier_le hle }

theorem four (h : e.Fits n room w) : e.Fits 4 room w :=
  { h with tier_le := h.canonical.tier_le }

theorem literal {t : Token} {value : Value} (h : t.Denotes value) :
    (Expr.literal value).Fits n room [t] :=
  ⟨.literal h, trivial, Nat.zero_le n, Nat.zero_le room⟩

theorem grouping {opening closing : Token} (hopening : opening.kind = .symbol .leftParen)
    (h : e.Fits m room w) (hclosing : closing.kind = .symbol .rightParen) :
    (Expr.grouping e).Fits n (room + 1) (opening :: w ++ [closing]) :=
  ⟨.grouping hopening h.written hclosing, h.canonical, Nat.zero_le n,
    Nat.succ_le_succ h.nesting_le⟩

theorem unary (hoperator : operator.kind = .symbol .bang ∨ operator.kind = .symbol .minus)
    (h : e.Fits 0 room w) : (Expr.unary operator e).Fits n (room + 1) (operator :: w) :=
  ⟨.unary h.written, ⟨hoperator, Nat.le_zero.1 h.tier_le, h.canonical⟩, Nat.zero_le n,
    Nat.succ_le_succ h.nesting_le⟩

theorem binary (hleft : left.Fits (n + 1) room u) (hoperator : operator.kind.tier? = some (n + 1))
    (hright : right.Fits n room v) :
    (Expr.binary left operator right).Fits (n + 1) room (u ++ operator :: v) := by
  refine ⟨.binary hleft.written hright.written, ?_, ?_, ?_⟩
  · exact ⟨n + 1, hoperator, hleft.tier_le, Nat.lt_succ_of_le hright.tier_le, hleft.canonical,
      hright.canonical⟩
  · rw [tier, hoperator]
    exact Nat.le_refl (n + 1)
  · exact Nat.max_le.2 ⟨hleft.nesting_le, hright.nesting_le⟩

end Fits

end Expr

end LoxSyntax
