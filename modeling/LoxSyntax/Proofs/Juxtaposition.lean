import LoxSyntax.Proofs.ExpressionTokens

/-!
Two expressions side by side. If the second starts with a minus, both together are one expression:
the minus is read as an operator behind the first, and what follows it is fitted in tier by tier.
The joint expression nests no deeper than the two that it is made of.
-/

namespace LoxSyntax

namespace Expr

/-- Puts an operator and its right side behind a tree. The operator goes in below all that are
looser than itself. -/
def attach (e : Expr) (operator : Token) (right : Expr) : Expr :=
  match e with
  | binary left outer inner =>
    if operator.kind.tier?.getD 0 < outer.kind.tier?.getD 0 then
      binary left outer (inner.attach operator right)
    else binary (binary left outer inner) operator right
  | e => binary e operator right

/-- Reads on behind `e`, taking the sign that the second tree starts with for an operator. -/
def absorb (e : Expr) : Expr → Expr
  | unary operator operand => e.attach operator operand
  | binary left operator right => (e.absorb left).attach operator right
  | later => later

variable {n m room : Nat} {e later right : Expr} {operator : Token} {u v : List Token}

theorem Fits.attach (he : e.Fits m room u) (hoperator : operator.kind.tier? = some (n + 1))
    (hright : right.Fits n room v) :
    (e.attach operator right).Fits (max m (n + 1)) room (u ++ operator :: v) := by
  have hbehind : e.tier ≤ n + 1 →
      (Expr.binary e operator right).Fits (max m (n + 1)) room (u ++ operator :: v) := by
    intro hle
    have hleft : e.Fits (n + 1) room u := { he with tier_le := hle }
    exact (hleft.binary hoperator hright).mono (Nat.le_max_right m (n + 1))
  induction e generalizing m u with
  | literal value => exact hbehind (Nat.zero_le _)
  | grouping inner ih => exact hbehind (Nat.zero_le _)
  | unary operator operand ih => exact hbehind (Nat.zero_le _)
  | binary left outer inner ihleft ihinner =>
    obtain ⟨hwritten, ⟨k, hk, hlefttier, hinnertier, hleftCanonical, hinnerCanonical⟩, htier,
      hnesting⟩ := he
    obtain ⟨hleftNesting, hinnerNesting⟩ := Nat.max_le.1 hnesting
    rw [Expr.tier, hk] at htier
    unfold Expr.attach
    rw [hoperator, hk]
    dsimp only [Option.getD_some] at htier ⊢
    split
    · rename_i hlt
      obtain ⟨j, rfl⟩ : ∃ j, k = j + 1 := Nat.exists_eq_add_one.2 (by omega)
      cases hwritten with
      | @binary _ _ _ a b hleftWritten hinnerWritten =>
        have hleft : left.Fits (j + 1) room a :=
          ⟨hleftWritten, hleftCanonical, hlefttier, hleftNesting⟩
        have hinner : inner.Fits j room b :=
          ⟨hinnerWritten, hinnerCanonical, Nat.le_of_lt_succ hinnertier, hinnerNesting⟩
        have hattached : (inner.attach operator right).Fits j room (b ++ operator :: v) := by
          have hmax := ihinner hinner (fun hle => ?_)
          · rwa [Nat.max_eq_left (by omega)] at hmax
          · have hinner' : inner.Fits (n + 1) room b := { hinner with tier_le := hle }
            exact (hinner'.binary hoperator hright).mono (Nat.le_max_right j (n + 1))
        have hjoint := hleft.binary hk hattached
        rw [List.append_assoc, List.cons_append]
        exact hjoint.mono (by omega)
    · rename_i hge
      apply hbehind
      rw [Expr.tier, hk]
      exact Nat.le_of_not_lt hge

/-- Behind an expression a minus goes on with it. -/
theorem Fits.absorb (he : e.Fits 4 room u) (hlater : later.Fits 4 room v)
    (hminus : ∀ t ∈ v.head?, t.kind = .symbol .minus) : (e.absorb later).Fits 4 room (u ++ v) := by
  obtain ⟨hwritten, hcanonical, -, hnesting⟩ := hlater
  induction hwritten with
  | @literal t value h =>
    have hkind := (Token.denotes_iff.1 h).1
    rw [hminus t rfl] at hkind
    exact absurd hkind (by decide)
  | @grouping opening closing inner w hopening h hclosing ih =>
    have hkind := hminus opening rfl
    rw [hopening] at hkind
    cases hkind
  | @unary operator operand w h ih =>
    have htier : operator.kind.tier? = some (1 + 1) := by rw [hminus operator rfl]; rfl
    obtain ⟨-, hoperandtier, hoperandCanonical⟩ := hcanonical
    have hoperand : operand.Fits 1 room w :=
      ⟨h, hoperandCanonical, by omega, Nat.le_of_succ_le hnesting⟩
    exact he.attach htier hoperand
  | @binary left operator right a b hleft hright ihleft ihright =>
    obtain ⟨k, hk, hlefttier, hrighttier, hleftCanonical, hrightCanonical⟩ := hcanonical
    obtain ⟨n, rfl⟩ : ∃ n, k = n + 1 := Nat.exists_eq_add_one.2 (Kind.tier?_bounds hk).1
    obtain ⟨hleftNesting, hrightNesting⟩ := Nat.max_le.1 hnesting
    have hleftMinus : ∀ t ∈ a.head?, t.kind = .symbol .minus := by
      obtain ⟨first, rest, rfl, -⟩ := hleft.head hleftCanonical
      exact hminus
    have hjoint := ihleft hleftMinus hleftCanonical hleftNesting
    have hright : right.Fits n room b :=
      ⟨hright, hrightCanonical, Nat.le_of_lt_succ hrighttier, hrightNesting⟩
    rw [← List.append_assoc]
    exact (hjoint.attach hk hright).four

end Expr

end LoxSyntax
