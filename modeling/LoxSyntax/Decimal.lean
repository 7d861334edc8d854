/-!
Plain decimal numerals: some digits, and how many of them stand behind the point. The numeral
with digits `m` and `k` places stands for `m / 10 ^ k`. It has no sign and no exponent.
-/

namespace LoxSyntax

structure Decimal where
  digits : Nat
  places : Nat
  deriving DecidableEq

namespace Decimal

/-- The numeral with the digits `whole` before the point and `fraction` behind it. -/
def ofDigits (whole fraction : List Char) : Decimal :=
  ⟨Nat.ofDigitChars 10 (whole ++ fraction) 0, fraction.length⟩

/-- The digits of `n`, filled up with zeros on the left to at least `width` of them. -/
def padded (width n : Nat) : List Char :=
  (Nat.toDigits 10 n).leftpad width '0'

/-- There is at least one digit before the point, and a point only if a digit follows it. -/
def chars (d : Decimal) : List Char :=
  let whole := Nat.toDigits 10 (d.digits / Nat.pow 10 d.places)
  if d.places = 0 then whole else whole ++ '.' :: padded d.places (d.digits % Nat.pow 10 d.places)

instance : ToString Decimal where
  toString d := String.ofList d.chars

end Decimal

end LoxSyntax
