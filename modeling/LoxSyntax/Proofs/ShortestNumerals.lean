import Mathlib
import LoxSyntax.Proofs.Numerals

/-!
How doubles are written. The text of a finite double is a plain numeral, with a minus in front if
the double is negative, and it reads back as that double: this is tested on every grid that the
search passes, and on the finest grid the magnitude itself is a point. So different doubles have
different texts.
-/

namespace LoxSyntax

namespace Double

theorem roundHalfEven_mul (n : Nat) {den : Nat} (hden : 0 < den) :
    roundHalfEven (n * den) den = n := by
  unfold roundHalfEven
  rw [Nat.mul_div_cancel n hden, Nat.mul_mod_left]
  exact if_pos (.inl hden)

/-- Only the ratio counts. -/
theorem roundHalfEven_mul_mul (num den : Nat) {k : Nat} (hk : 0 < k) :
    roundHalfEven (num * k) (den * k) = roundHalfEven num den := by
  have hdouble : 2 * (num % den * k) = 2 * (num % den) * k := (Nat.mul_assoc 2 _ k).symm
  unfold roundHalfEven
  simp only [Nat.mul_div_mul_right _ _ hk, Nat.mul_mod_mul_right, hdouble,
    Nat.mul_lt_mul_right hk, Nat.mul_right_cancel_iff hk]

theorem nearestRank_mul_mul (num den : Nat) {k : Nat} (hk : 0 < k) :
    nearestRank (num * k) (den * k) = nearestRank num den := by
  have hscaled : num * k * Nat.pow 2 1074 = num * Nat.pow 2 1074 * k := Nat.mul_right_comm _ _ _
  have hshifted : ∀ power, den * k * power = den * power * k := fun power =>
    Nat.mul_right_comm _ _ _
  unfold nearestRank
  simp only [hscaled, hshifted, Nat.mul_div_mul_right _ _ hk, roundHalfEven_mul_mul _ _ hk]

/-- A magnitude is its 53 leading bits, shifted as far as it has more of them. -/
theorem units_eq (rank : Nat) :
    ∃ bits, units rank = bits * 2 ^ (Nat.log2 (units rank) - 52) ∧
      (Nat.log2 (units rank) - 52) * 2 ^ 52 + bits = rank := by
  by_cases hsmall : rank < 2 ^ 52
  · have hunits : units rank = rank := if_pos hsmall
    have hlog : Nat.log2 rank - 52 = 0 := by
      by_cases hzero : rank = 0
      · subst hzero
        rfl
      · have hlt := (Nat.log2_lt hzero).2 hsmall
        omega
    rw [hunits, hlog]
    exact ⟨rank, (Nat.mul_one rank).symm, by omega⟩
  · have hunits : units rank = (2 ^ 52 + rank % 2 ^ 52) * 2 ^ (rank / 2 ^ 52 - 1) := if_neg hsmall
    have hmod := Nat.mod_lt rank (Nat.two_pow_pos 52)
    have hdiv := Nat.div_add_mod rank (2 ^ 52)
    have hpos : 1 ≤ rank / 2 ^ 52 := (Nat.one_le_div_iff (Nat.two_pow_pos 52)).2 (by omega)
    have hne : (2 ^ 52 + rank % 2 ^ 52) * 2 ^ (rank / 2 ^ 52 - 1) ≠ 0 :=
      Nat.ne_of_gt (Nat.mul_pos (by omega) (Nat.two_pow_pos _))
    have hlog : Nat.log2 ((2 ^ 52 + rank % 2 ^ 52) * 2 ^ (rank / 2 ^ 52 - 1)) =
        52 + (rank / 2 ^ 52 - 1) := by
      rw [Nat.log2_eq_iff hne, Nat.pow_add, Nat.add_right_comm, Nat.pow_add]
      exact ⟨Nat.mul_le_mul_right _ (by omega),
        Nat.mul_lt_mul_of_pos_right (by omega) (Nat.two_pow_pos _)⟩
    rw [hunits, hlog, Nat.add_sub_cancel_left]
    exact ⟨2 ^ 52 + rank % 2 ^ 52, rfl, by omega⟩

/-- A ratio that is a magnitude exactly is rounded to it. -/
theorem nearestRank_of_exact {num den rank : Nat} (hden : 0 < den)
    (hexact : num * Nat.pow 2 1074 = units rank * den) (hrank : rank < ranks) :
    nearestRank num den = rank := by
  obtain ⟨bits, hunits, hbits⟩ := units_eq rank
  have hlead : units rank * den / den = units rank := Nat.mul_div_cancel _ hden
  have hround : units rank * den = bits * (den * Nat.pow 2 (Nat.log2 (units rank) - 52)) := by
    rw [Nat.mul_comm den, ← Nat.mul_assoc]
    exact congrArg (· * den) hunits
  have hpos : 0 < den * Nat.pow 2 (Nat.log2 (units rank) - 52) :=
    Nat.mul_pos hden (Nat.two_pow_pos _)
  unfold nearestRank
  dsimp only
  rw [hexact, hlead, hround, roundHalfEven_mul bits hpos]
  exact (congrArg (min · ranks) hbits).trans (Nat.min_eq_left (Nat.le_of_lt hrank))

theorem readsBack_iff {rank count exponent : Nat} :
    readsBack rank count exponent = true ↔
      nearestRank (count * Nat.pow 10 exponent) (Nat.pow 10 1074) = rank := by
  unfold readsBack
  exact beq_iff_eq

/- The powers of the finest grid are never to be computed, so facts about powers are stated of any
exponent. -/

theorem ten_pow_pos (n : Nat) : 0 < Nat.pow 10 n := Nat.pow_pos (by decide)

theorem mul_five_pow_mul_two_pow (m n : Nat) :
    m * Nat.pow 5 n * Nat.pow 2 n = m * Nat.pow 10 n := by
  have hpow : Nat.pow 10 n = Nat.pow 5 n * Nat.pow 2 n := Nat.mul_pow 5 2 n
  rw [hpow, Nat.mul_assoc]

theorem ten_pow_sub_mul {m n : Nat} (h : m ≤ n) :
    Nat.pow 10 (n - m) * Nat.pow 10 m = Nat.pow 10 n := by
  have hpow : Nat.pow 10 (n - m + m) = Nat.pow 10 (n - m) * Nat.pow 10 m := Nat.pow_add 10 (n - m) m
  rw [← hpow, Nat.sub_add_cancel h]

/-- Digits that are all behind the point. -/
theorem nearestRank_of_le (num : Nat) {m n : Nat} (h : m ≤ n) :
    nearestRank (num * Nat.pow 10 m) (Nat.pow 10 n) = nearestRank num (Nat.pow 10 (n - m)) := by
  rw [← ten_pow_sub_mul h, nearestRank_mul_mul _ _ (ten_pow_pos m)]

/-- Digits that no place is left for behind the point. -/
theorem nearestRank_of_ge (num : Nat) {m n : Nat} (h : n ≤ m) :
    nearestRank (num * Nat.pow 10 m) (Nat.pow 10 n) =
      nearestRank (num * Nat.pow 10 (m - n)) (Nat.pow 10 0) := by
  have hcancel := nearestRank_mul_mul (num * Nat.pow 10 (m - n)) 1 (ten_pow_pos n)
  rw [Nat.one_mul, Nat.mul_assoc, ten_pow_sub_mul h] at hcancel
  exact hcancel

/-- On the finest grid every magnitude reads back. -/
theorem readsBack_finest {rank : Nat} (hrank : rank < ranks) :
    readsBack rank (decimalUnits rank) 0 = true := by
  have hden := ten_pow_pos 1074
  have hone : ∀ n, n * Nat.pow 10 0 = n := Nat.mul_one
  have hunits : decimalUnits rank * Nat.pow 2 1074 = units rank * Nat.pow 10 1074 :=
    mul_five_pow_mul_two_pow (units rank) 1074
  have hrounded := nearestRank_of_exact hden hunits hrank
  rw [readsBack_iff, hone]
  exact hrounded

/-- Whichever grid the search ends on, its point reads back. -/
theorem readsBack_of_coarsest {rank top count exponent : Nat} (hrank : rank < ranks)
    (h : coarsest rank top = (count, exponent)) : readsBack rank count exponent = true := by
  unfold coarsest at h
  cases hgrid : greatest? (neighbour? rank) top with
  | none =>
    rw [hgrid, Option.getD_none, Prod.mk.injEq] at h
    obtain ⟨rfl, rfl⟩ := h
    exact readsBack_finest hrank
  | some grid =>
    rw [hgrid, Option.getD_some] at h
    subst h
    have hneighbour := choice_of_greatest? hgrid
    unfold neighbour? at hneighbour
    have htest := test_of_pick hneighbour
    exact htest

theorem nearestRank_numeral {rank count exponent : Nat}
    (h : readsBack rank count exponent = true) :
    nearestRank (numeral count exponent).digits (Nat.pow 10 (numeral count exponent).places) =
      rank := by
  rw [readsBack_iff] at h
  unfold numeral
  split
  · rename_i hlt
    have hplaces := nearestRank_of_le count (Nat.le_of_lt hlt)
    exact hplaces.symm.trans h
  · rename_i hge
    have hwhole := nearestRank_of_ge count (Nat.not_lt.1 hge)
    exact hwhole.symm.trans h

/-- The shortest numeral of a magnitude is nearest to this magnitude. -/
theorem nearestRank_shortest {rank : Nat} (hrank : rank < ranks) :
    nearestRank (shortest rank).digits (Nat.pow 10 (shortest rank).places) = rank := by
  unfold shortest
  by_cases hzero : rank = 0
  · have hden := ten_pow_pos 0
    have hunits : ∀ n, 0 * n = units rank * Nat.pow 10 0 := by
      intro n
      rw [hzero, Nat.zero_mul]
      rfl
    have hexact := hunits (Nat.pow 2 1074)
    have hnearest : nearestRank 0 (Nat.pow 10 0) = rank := nearestRank_of_exact hden hexact hrank
    rw [if_pos hzero]
    exact hnearest
  · rw [if_neg hzero]
    cases hfound : coarsest rank (topExponent rank) with
    | mk count exponent => exact nearestRank_numeral (readsBack_of_coarsest hrank hfound)

end Double

namespace Decimal

theorem isDigit_of_mem_padded {width n : Nat} {c : Char} (h : c ∈ padded width n) :
    c.isDigit = true := by
  rw [padded, List.leftpad.eq_1, List.mem_append] at h
  rcases h with h | h
  · rw [List.eq_of_mem_replicate h]
    rfl
  · exact Nat.isDigit_of_mem_toDigits (by decide) (by decide) h

theorem length_padded {width n : Nat} (hwidth : 0 < width) (hn : n < 10 ^ width) :
    (padded width n).length = width := by
  have hle : (Nat.toDigits 10 n).length ≤ width :=
    (Nat.length_toDigits_le_iff (by decide) hwidth).2 hn
  rw [padded, List.length_leftpad, Nat.max_eq_left hle]

theorem ofDigitChars_padded (width n : Nat) : Nat.ofDigitChars 10 (padded width n) 0 = n := by
  rw [padded, List.leftpad.eq_1, Nat.ofDigitChars_append, Nat.ofDigitChars_replicate_zero,
    Nat.mul_zero, Nat.ofDigitChars_ten_toDigits]

/-- A numeral is written with digits that it is made of. -/
theorem exists_ofDigits_eq (d : Decimal) :
    ∃ whole fraction, whole ≠ [] ∧ (∀ c ∈ whole, c.isDigit = true) ∧
      (∀ c ∈ fraction, c.isDigit = true) ∧ ofDigits whole fraction = d ∧
      d.chars = if fraction = [] then whole else whole ++ '.' :: fraction := by
  obtain ⟨digits, places⟩ := d
  have hdigits : ∀ n, ∀ c ∈ Nat.toDigits 10 n, c.isDigit = true := fun n c =>
    Nat.isDigit_of_mem_toDigits (by decide) (by decide)
  by_cases hplaces : places = 0
  · subst hplaces
    have hwhole : digits / Nat.pow 10 0 = digits := Nat.div_one digits
    refine ⟨Nat.toDigits 10 digits, [], Nat.toDigits_ne_nil, hdigits digits, by simp, ?_, ?_⟩
    · rw [ofDigits, List.append_nil, Nat.ofDigitChars_ten_toDigits]
      rfl
    · rw [chars, hwhole, if_pos rfl, if_pos rfl]
  · have hpos := Nat.pos_of_ne_zero hplaces
    have hlt : digits % 10 ^ places < 10 ^ places := Nat.mod_lt _ (Nat.pow_pos (by decide))
    have hlength := length_padded hpos hlt
    have hne : padded places (digits % 10 ^ places) ≠ [] := by
      rw [← List.length_pos_iff, hlength]
      exact hpos
    refine ⟨Nat.toDigits 10 (digits / 10 ^ places), padded places (digits % 10 ^ places),
      Nat.toDigits_ne_nil, hdigits _, fun _ => isDigit_of_mem_padded, ?_, ?_⟩
    · rw [ofDigits, Nat.ofDigitChars_append, Nat.ofDigitChars_eq_ofDigitChars_zero, hlength,
        ofDigitChars_padded, Nat.ofDigitChars_ten_toDigits, Nat.div_add_mod]
    · rw [if_neg hne]
      exact if_neg hplaces

theorem numeral_chars (d : Decimal) : Numeral d.chars := by
  obtain ⟨whole, fraction, hwhole, hwholeDigits, hfractionDigits, -, hchars⟩ :=
    exists_ofDigits_eq d
  rw [hchars]
  split
  · exact .whole hwhole hwholeDigits
  · rename_i hfraction
    exact .fractional hwhole hwholeDigits hfraction hfractionDigits

theorem decimal?_chars (d : Decimal) : Double.decimal? d.chars = some d := by
  obtain ⟨whole, fraction, hwhole, hwholeDigits, hfractionDigits, hd, hchars⟩ :=
    exists_ofDigits_eq d
  obtain ⟨hdigits, hpoint⟩ := Double.decimal?_digits hwhole hwholeDigits hfractionDigits
  rw [hchars, ← hd]
  split
  · rename_i hfraction
    rw [hfraction, hdigits]
  · exact hpoint

end Decimal

namespace Double

/-- A finite double is written as a numeral that may have a minus in front. -/
theorem toList_toString_finite (negative : Bool) (rank : Fin ranks) :
    (toString (finite negative rank)).toList =
      (if negative then ['-'] else []) ++ (shortest rank).chars := by
  have htext : toString (finite negative rank) =
      (if negative then "-" else "") ++ String.ofList (shortest rank).chars := rfl
  rw [htext, String.toList_append, String.toList_ofList]
  cases negative with
  | false => rfl
  | true => rfl

/-- The text of a double reads back as this double. -/
theorem ofText?_toString (d : Double) : ofText? (toString d).toList = some d := by
  cases d with
  | finite negative rank =>
    obtain ⟨c, rest, hchars, hc⟩ := (Decimal.numeral_chars (shortest rank)).exists_isDigit
    have hread : decimal? (c :: rest) = some (shortest rank) := by
      rw [← hchars, Decimal.decimal?_chars]
    have hvalue : ofRank negative (nearestRank (shortest rank).digits
        (Nat.pow 10 (shortest rank).places)) = .finite negative rank := by
      rw [nearestRank_shortest rank.isLt, ofRank, dif_pos rank.isLt]
    have hsign : splitSign ((if negative then ['-'] else []) ++ c :: rest) =
        (negative, c :: rest) := by
      cases negative with
      | false => exact splitSign_of_isDigit hc rest
      | true => rfl
    rw [toList_toString_finite, hchars, ofText?_of_splitSign hsign hc, hread, Option.map_some,
      hvalue]
  | infinite negative => cases negative <;> rfl
  | nan => rfl

/-- Different doubles are written differently. -/
theorem toString_injective {a b : Double} (h : toString a = toString b) : a = b :=
  Option.some.inj ((ofText?_toString a).symm.trans (h ▸ ofText?_toString b))

end Double

end LoxSyntax
