import LoxSyntax.Segment

/-!
Numerals as texts. A number is read from a text by a grammar that is wider than that of numerals:
it has signs, exponents and names for what is not finite. Every numeral is among its texts and is
read as the double nearest to it.
-/

namespace LoxSyntax

/-- Where `p` ends to hold in a text is settled by the first character that it fails on. -/
theorem span_append {α : Type} {p : α → Bool} {run : List α} (hrun : ∀ a ∈ run, p a = true)
    (rest : List α) (hrest : ∀ a ∈ rest.head?, p a = false) :
    (run ++ rest).takeWhile p = run ∧ (run ++ rest).dropWhile p = rest := by
  rw [List.takeWhile_append_of_pos hrun, List.dropWhile_append_of_pos hrun]
  cases rest with
  | nil => exact ⟨List.append_nil run, rfl⟩
  | cons a later =>
    have ha : ¬ p a = true := by simpa using hrest a rfl
    rw [List.takeWhile_cons_of_neg ha, List.dropWhile_cons_of_neg ha]
    exact ⟨List.append_nil run, rfl⟩

/-- Digits, or digits on both sides of a point. -/
inductive Numeral : List Char → Prop
  | whole {digits : List Char} (hne : digits ≠ []) (hdigits : ∀ c ∈ digits, c.isDigit = true) :
      Numeral digits
  | fractional {whole fraction : List Char} (hwhole : whole ≠ [])
      (hwholeDigits : ∀ c ∈ whole, c.isDigit = true) (hfraction : fraction ≠ [])
      (hfractionDigits : ∀ c ∈ fraction, c.isDigit = true) :
      Numeral (whole ++ '.' :: fraction)

theorem Numeral.isDigit_or_eq_point {text : List Char} (h : Numeral text) :
    ∀ c ∈ text, c.isDigit = true ∨ c = '.' := by
  cases h with
  | whole _ hdigits => exact fun c hc => .inl (hdigits c hc)
  | fractional _ hwhole _ hfraction =>
    intro c hc
    rcases List.mem_append.1 hc with hc | hc
    · exact .inl (hwhole c hc)
    · rcases List.mem_cons.1 hc with rfl | hc
      · exact .inr rfl
      · exact .inl (hfraction c hc)

theorem Numeral.exists_isDigit {text : List Char} (h : Numeral text) :
    ∃ c rest, text = c :: rest ∧ c.isDigit = true := by
  cases h with
  | whole hne hdigits =>
    obtain ⟨c, rest, rfl⟩ := List.exists_cons_of_ne_nil hne
    exact ⟨c, rest, rfl, hdigits c List.mem_cons_self⟩
  | fractional hwhole hwholeDigits =>
    obtain ⟨c, rest, rfl⟩ := List.exists_cons_of_ne_nil hwhole
    exact ⟨c, _, rfl, hwholeDigits c List.mem_cons_self⟩

/-- The numeral multiplied by a power of ten. -/
def Decimal.shifted (d : Decimal) (exponent : Int) : Decimal :=
  ⟨d.digits * Nat.pow 10 exponent.toNat, d.places + (-exponent).toNat⟩

theorem Decimal.shifted_zero (d : Decimal) : d.shifted 0 = d := by
  have hdigits : d.digits * Nat.pow 10 0 = d.digits := Nat.mul_one d.digits
  exact congrArg (fun digits => Decimal.mk digits d.places) hdigits

namespace Double

/-- Whether a text starts with a minus, and what follows the sign if it has one. -/
def splitSign : List Char → Bool × List Char
  | '+' :: rest => (false, rest)
  | '-' :: rest => (true, rest)
  | rest => (false, rest)

/-- The power of ten behind a numeral: nothing, or an `e` with digits that may have a sign. -/
def exponent? : List Char → Option Int
  | [] => some 0
  | e :: rest =>
    let (negative, digits) := splitSign rest
    if e.toLower = 'e' ∧ digits ≠ [] ∧ digits.all Char.isDigit then
      let size : Int := Nat.ofDigitChars 10 digits 0
      some (if negative then -size else size)
    else none

/-- A point may stand at either end of the digits, but not alone. -/
def decimal? (text : List Char) : Option Decimal :=
  let whole := text.takeWhile Char.isDigit
  let behind := text.dropWhile Char.isDigit
  let fraction := fraction behind
  let rest := if behind.head? = some '.' then behind.tail.dropWhile Char.isDigit else behind
  if whole = [] ∧ fraction = [] then none
  else (exponent? rest).map (Decimal.ofDigits whole fraction).shifted

/-- The double that a text stands for; capitals are read as small letters. -/
def ofText? (text : List Char) : Option Double :=
  let (negative, unsigned) := splitSign text
  let name := String.ofList (unsigned.map Char.toLower)
  if name = "inf" ∨ name = "infinity" then some (.infinite negative)
  else if name = "nan" then some .nan
  else (decimal? unsigned).map fun d =>
    ofRank negative (nearestRank d.digits (Nat.pow 10 d.places))

/-- Behind its digits a numeral ends, or it goes on with a point and digits to its end. -/
theorem decimal?_digits {whole fraction : List Char} (hwhole : whole ≠ [])
    (hwholeDigits : ∀ c ∈ whole, c.isDigit = true)
    (hfractionDigits : ∀ c ∈ fraction, c.isDigit = true) :
    decimal? whole = some (.ofDigits whole []) ∧
      decimal? (whole ++ '.' :: fraction) = some (.ofDigits whole fraction) := by
  constructor
  · obtain ⟨htake, hdrop⟩ := span_append hwholeDigits [] (by simp)
    rw [List.append_nil] at htake hdrop
    simp [decimal?, htake, hdrop, LoxSyntax.fraction, hwhole, exponent?, Decimal.shifted_zero]
  · obtain ⟨htake, hdrop⟩ := span_append hwholeDigits ('.' :: fraction) (by simp)
    obtain ⟨htakeFraction, hdropFraction⟩ := span_append hfractionDigits [] (by simp)
    rw [List.append_nil] at htakeFraction hdropFraction
    simp [decimal?, htake, hdrop, LoxSyntax.fraction, hwhole, htakeFraction, hdropFraction,
      exponent?, Decimal.shifted_zero]

theorem toLower_of_isDigit {c : Char} (h : c.isDigit = true) : c.toLower = c := by
  have hle : c.val ≤ 57 := by
    simp only [Char.isDigit, Bool.and_eq_true, decide_eq_true_eq] at h
    exact h.2
  unfold Char.toLower
  grind

/-- Digits behind a sign, or behind none, are no name. -/
theorem ofText?_of_splitSign {text rest : List Char} {c : Char} {negative : Bool}
    (hsign : splitSign text = (negative, c :: rest)) (hc : c.isDigit = true) :
    ofText? text = (decimal? (c :: rest)).map fun d =>
      ofRank negative (nearestRank d.digits (Nat.pow 10 d.places)) := by
  have hname : ∀ d name, d.isDigit = false →
      String.ofList ((c :: rest).map Char.toLower) ≠ String.ofList (d :: name) := by
    intro d name hd heq
    have hlist := String.ofList_injective heq
    rw [List.map_cons, toLower_of_isDigit hc] at hlist
    rw [(List.cons.inj hlist).1, hd] at hc
    cases hc
  have hinf := hname 'i' ['n', 'f'] rfl
  have hinfinity := hname 'i' ['n', 'f', 'i', 'n', 'i', 't', 'y'] rfl
  have hnan := hname 'n' ['a', 'n'] rfl
  unfold ofText?
  rw [hsign]
  dsimp only
  rw [if_neg (not_or.2 ⟨hinf, hinfinity⟩), if_neg hnan]

theorem splitSign_of_isDigit {c : Char} (hc : c.isDigit = true) (rest : List Char) :
    splitSign (c :: rest) = (false, c :: rest) := by
  unfold splitSign
  split
  · rename_i heq
    cases heq
    cases hc
  · rename_i heq
    cases heq
    cases hc
  · rfl

theorem ofText?_of_isDigit {c : Char} (hc : c.isDigit = true) (rest : List Char) :
    ofText? (c :: rest) = (decimal? (c :: rest)).map ofDecimal :=
  ofText?_of_splitSign (splitSign_of_isDigit hc rest) hc

end Double

/-- A numeral is read as the double nearest to it, so it is never refused. -/
theorem Double.ofText?_digits {whole fraction : List Char} (hwhole : whole ≠ [])
    (hwholeDigits : ∀ c ∈ whole, c.isDigit = true)
    (hfractionDigits : ∀ c ∈ fraction, c.isDigit = true) :
    ofText? whole = some (ofDecimal (.ofDigits whole [])) ∧
      ofText? (whole ++ '.' :: fraction) = some (ofDecimal (.ofDigits whole fraction)) := by
  obtain ⟨c, rest, rfl⟩ := List.exists_cons_of_ne_nil hwhole
  have hc : c.isDigit = true := hwholeDigits c List.mem_cons_self
  obtain ⟨hdigits, hpoint⟩ := decimal?_digits hwhole hwholeDigits hfractionDigits
  rw [List.cons_append] at hpoint ⊢
  rw [ofText?_of_isDigit hc, ofText?_of_isDigit hc, hdigits, hpoint]
  exact ⟨rfl, rfl⟩

end LoxSyntax
