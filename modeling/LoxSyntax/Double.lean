import LoxSyntax.Decimal

/-!
Numbers of 64 bits with a fraction of 52, as IEEE 754 lays them out. The magnitudes of the finite
ones are ranked by size: rank 0 is zero and rank 1 the least positive one, `2 ^ -1074`. The rank
is the bit pattern without its sign, so all arithmetic here is on natural numbers and exact.
-/

namespace LoxSyntax

/-- The number of finite magnitudes, which is also the rank that an infinity would have. -/
def Double.ranks : Nat := 0x7FF * Nat.pow 2 52

inductive Double
  | finite (negative : Bool) (rank : Fin Double.ranks)
  | infinite (negative : Bool)
  | nan
  deriving DecidableEq

namespace Double

/-- The magnitude of a rank, in units of `2 ^ -1074`. -/
def units (rank : Nat) : Nat :=
  if rank < Nat.pow 2 52 then rank
  else (Nat.pow 2 52 + rank % Nat.pow 2 52) * Nat.pow 2 (rank / Nat.pow 2 52 - 1)

/-- The whole number nearest to `num / den`, the even one of two that are equally near. -/
def roundHalfEven (num den : Nat) : Nat :=
  let low := num / den
  let rest := 2 * (num % den)
  if rest < den ∨ rest = den ∧ low % 2 = 0 then low else low + 1

/-- The rank of the magnitude nearest to `num / den`, or `ranks` where that is no finite one.
A magnitude keeps 53 bits, so what lies below them is shifted out and rounded away; a carry into
a 54th bit leads to the next rank by itself. -/
def nearestRank (num den : Nat) : Nat :=
  let scaled := num * Nat.pow 2 1074
  let shift := Nat.log2 (scaled / den) - 52
  min (shift * Nat.pow 2 52 + roundHalfEven scaled (den * Nat.pow 2 shift)) ranks

def ofRank (negative : Bool) (rank : Nat) : Double :=
  if h : rank < ranks then .finite negative ⟨rank, h⟩ else .infinite negative

/-- The double nearest to a numeral; one that is too large is infinite. -/
def ofDecimal (d : Decimal) : Double :=
  ofRank false (nearestRank d.digits (Nat.pow 10 d.places))

/-- Every pattern above an infinity's is the one number that is not a number. -/
def ofBits (bits : UInt64) : Double :=
  let rank := bits.toNat % Nat.pow 2 63
  if ranks < rank then .nan else ofRank (Nat.pow 2 63 ≤ bits.toNat) rank

/-- The bits of a magnitude of the given rank, which may be that of an infinity. -/
def signed (negative : Bool) (rank : Nat) : UInt64 :=
  UInt64.ofNat ((if negative then Nat.pow 2 63 else 0) + rank)

def toBits : Double → UInt64
  | .finite negative rank => signed negative rank
  | .infinite negative => signed negative ranks
  | .nan => UInt64.ofNat (ranks + Nat.pow 2 51)

/-- Comparison by value: the two zeros are the same number, and what is not a number equals
nothing, not even itself. -/
def equal : Double → Double → Bool
  | .finite n r, .finite m s => r == s && (n == m || r.val == 0)
  | .infinite n, .infinite m => n == m
  | _, _ => false

theorem ofBits_signed (negative : Bool) (rank : Nat) (h : rank ≤ ranks) :
    ofBits (signed negative rank) = ofRank negative rank := by
  have hsign : Nat.pow 2 63 = 0x8000000000000000 := rfl
  have hranks : ranks < 0x8000000000000000 := by decide
  have hbits : (signed negative rank).toNat =
      (if negative then 0x8000000000000000 else 0) + rank := by
    rw [signed, UInt64.toNat_ofNat', hsign]
    apply Nat.mod_eq_of_lt
    split
    · omega
    · omega
  unfold ofBits
  rw [hbits, hsign]
  cases negative with
  | false =>
    have hmod : (0 + rank) % 0x8000000000000000 = rank := by omega
    simp only [Bool.false_eq_true, ite_false, hmod]
    rw [if_neg (by omega)]
    congr 1
    simp only [decide_eq_false_iff_not]
    omega
  | true =>
    have hmod : (0x8000000000000000 + rank) % 0x8000000000000000 = rank := by omega
    simp only [ite_true, hmod]
    rw [if_neg (by omega)]
    congr 1
    simp only [decide_eq_true_eq]
    omega

theorem ofBits_toBits (d : Double) : ofBits d.toBits = d := by
  cases d with
  | finite negative rank =>
    have hbits := ofBits_signed negative rank (Nat.le_of_lt rank.isLt)
    rwa [ofRank, dif_pos rank.isLt] at hbits
  | infinite negative =>
    have hbits := ofBits_signed negative ranks (Nat.le_refl _)
    rwa [ofRank, dif_neg (Nat.lt_irrefl _)] at hbits
  | nan => decide

end Double

end LoxSyntax
