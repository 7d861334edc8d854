import LoxSyntax.Double

/-!
The shortest numeral of a double. Among the decimal numerals that read back as a given magnitude
the one with the coarsest last digit is taken, of two such the nearer one, and at an exact tie
the larger. Only the two neighbours of the magnitude on each decimal grid have to be tried: when
any point of a grid reads back, so does one of these.
-/

namespace LoxSyntax.Double

/-- A magnitude in units of `10 ^ -1074`, which is a whole number as well. -/
def decimalUnits (rank : Nat) : Nat := units rank * Nat.pow 5 1074

/-- Whether `count` steps of `10 ^ exponent` decimal units read back as `rank`. -/
def readsBack (rank count exponent : Nat) : Bool :=
  nearestRank (count * Nat.pow 10 exponent) (Nat.pow 10 1074) == rank

/-- Of `low` and the number above it the one that passes the test, and of two that pass the one
that is nearer. -/
def pick (test : Nat → Bool) (low : Nat) (lowIsNearer : Bool) : Option Nat :=
  match test low, test (low + 1) with
  | true, true => some (if lowIsNearer then low else low + 1)
  | true, false => some low
  | false, true => some (low + 1)
  | false, false => none

theorem test_of_pick {test : Nat → Bool} {low n : Nat} {lowIsNearer : Bool}
    (h : pick test low lowIsNearer = some n) : test n = true := by
  unfold pick at h
  split at h
  · rename_i hlow hhigh
    cases h
    split
    · exact hlow
    · exact hhigh
  · rename_i hlow hhigh
    cases h
    exact hlow
  · rename_i hlow hhigh
    cases h
    exact hhigh
  · cases h

/-- The neighbour of a magnitude on the grid of step `10 ^ exponent` that reads back. -/
def neighbour? (rank exponent : Nat) : Option Nat :=
  let step := Nat.pow 10 exponent
  pick (readsBack rank · exponent) (decimalUnits rank / step)
    (2 * (decimalUnits rank % step) < step)

/-- The greatest number up to `top`, but for zero, that `choice` has an answer to, behind the
answer. -/
def greatest? (choice : Nat → Option Nat) : (top : Nat) → Option (Nat × Nat)
  | 0 => none
  | n + 1 =>
    match choice (n + 1) with
    | some answer => some (answer, n + 1)
    | none => greatest? choice n

theorem choice_of_greatest? {choice : Nat → Option Nat} {top answer n : Nat}
    (h : greatest? choice top = some (answer, n)) : choice n = some answer := by
  induction top with
  | zero => cases h
  | succ top ih =>
    unfold greatest? at h
    split at h
    · rename_i found hfound
      cases h
      exact hfound
    · exact ih h

/-- Decimal units on the coarsest grid that reads back, searched from `top` downwards; on the
finest grid the magnitude itself is a point. -/
def coarsest (rank top : Nat) : Nat × Nat :=
  (greatest? (neighbour? rank) top).getD (decimalUnits rank, 0)

/-- The numeral of `count` steps of `10 ^ exponent` decimal units. -/
def numeral (count exponent : Nat) : Decimal :=
  if exponent < 1074 then ⟨count, 1074 - exponent⟩ else ⟨count * Nat.pow 10 (exponent - 1074), 0⟩

/-- A grid with a step above the magnitude. Since `2 ^ 93 < 10 ^ 28`, every 93 binary digits are
worth at most 28 decimal ones. -/
def topExponent (rank : Nat) : Nat := (Nat.log2 (decimalUnits rank) + 1) * 28 / 93 + 1

def shortest (rank : Nat) : Decimal :=
  if rank = 0 then ⟨0, 0⟩
  else
    let (count, exponent) := coarsest rank (topExponent rank)
    numeral count exponent

def magnitude : Double → String
  | .finite _ rank => toString (shortest rank)
  | .infinite _ => "inf"
  | .nan => "NaN"

def isNegative : Double → Bool
  | .finite negative _ => negative
  | .infinite negative => negative
  | .nan => false

/-- Never an exponent, no point behind a whole number, and a sign also before a zero. -/
instance : ToString Double where
  toString d := (if d.isNegative then "-" else "") ++ d.magnitude

end LoxSyntax.Double
