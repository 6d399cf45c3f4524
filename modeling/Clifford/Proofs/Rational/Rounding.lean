import Mathlib
import Clifford.Rational.Binary64

/-! Rounding to double precision moves a number by half a unit in the last place at most. -/

namespace Clifford.Binary64

/-- Rounding to a natural number moves a quotient by a half at most. -/
theorem divideHalfEven_error (n : Nat) {d : Nat} (positive : 0 < d) :
    |(divideHalfEven n d : Rat) - n / d| ≤ 1 / 2 := by
  have positive' : (0 : Rat) < d := by exact_mod_cast positive
  have division := Nat.div_add_mod n d
  have small := Nat.mod_lt n positive
  -- Twice the distance is at most the divisor, after clearing the denominator.
  have cleared : 2 * (divideHalfEven n d * d) ≤ 2 * n + d ∧ 2 * n ≤ 2 * (divideHalfEven n d * d) + d := by
    rw [divideHalfEven]
    generalize n / d = q at division
    generalize n % d = r at division small
    rw [mul_comm] at division
    have above : (q + 1) * d = q * d + d := by ring
    -- Rounding goes up from the half on, or to the even neighbour in the middle.
    rcases Nat.mod_two_eq_zero_or_one q with even | odd
    · simp only [even, add_zero]
      split_ifs <;> omega
    · simp only [odd]
      split_ifs <;> omega
  obtain ⟨high, low⟩ : 2 * ((divideHalfEven n d : Rat) * d) ≤ 2 * n + d ∧
      2 * (n : Rat) ≤ 2 * (divideHalfEven n d * d) + d := by exact_mod_cast cleared
  have difference : (divideHalfEven n d : Rat) - n / d = (divideHalfEven n d * d - n) / d := by
    field_simp
  rw [difference, abs_le]
  constructor
  · rw [le_div_iff₀ positive']
    linarith
  · rw [div_le_iff₀ positive']
    linarith

/-- A significand stands for a multiple of a power of two. -/
theorem scaled_eq (m : Nat) (e : Int) : scaled m e = m * (2 : Rat) ^ e := by
  rw [scaled]
  split
  · -- A shift to the left multiplies by the power.
    rename_i nonneg
    rw [Nat.shiftLeft_eq, ← Int.toNat_of_nonneg nonneg, Int.toNat_natCast, zpow_natCast]
    push_cast
    rfl
  · -- Otherwise the power stands in the denominator.
    rename_i negative
    have exponent : e = -((-e).toNat : Int) := by omega
    conv_rhs => rw [exponent, zpow_neg, zpow_natCast]
    rw [Rat.mkRat_eq_div, Nat.one_shiftLeft]
    push_cast
    rw [div_eq_mul_inv]

/-- A quotient of two numbers that are shifted by the two parts of an exponent. -/
theorem shifted_quotient (num den : Nat) (e : Int) :
    ((num <<< (-e).toNat : Nat) : Rat) / (den <<< e.toNat : Nat) = num / den / (2 : Rat) ^ e := by
  -- One of the two shifts is by nothing, so their quotient is the power with its sign.
  have power : (2 : Rat) ^ e = 2 ^ e.toNat / 2 ^ (-e).toNat := by
    rw [← zpow_natCast, ← zpow_natCast, ← zpow_sub₀ two_ne_zero]
    congr 1
    omega
  rw [Nat.shiftLeft_eq, Nat.shiftLeft_eq, power]
  push_cast
  rw [mul_div_mul_comm, div_div_eq_mul_div, mul_div_assoc]

/-- The leading digit of a quotient is not larger than the quotient. -/
theorem leadingExponent_le {num den : Nat} (positive : 0 < num) (positive' : 0 < den) :
    (2 : Rat) ^ leadingExponent num den ≤ num / den := by
  have positiveDen : (0 : Rat) < den := by exact_mod_cast positive'
  rw [leadingExponent]
  split
  · -- The first guess fits, which says just this after clearing the denominators.
    rename_i fits
    have shifted : 0 < den <<< ((num.log2 : Int) - den.log2).toNat := by
      rw [Nat.shiftLeft_eq]
      positivity
    have atLeast : (1 : Rat) ≤ (num <<< (-((num.log2 : Int) - den.log2)).toNat : Nat) /
        (den <<< ((num.log2 : Int) - den.log2).toNat : Nat) := by
      rw [one_le_div (by exact_mod_cast shifted)]
      exact_mod_cast fits
    rwa [shifted_quotient, one_le_div (by positivity)] at atLeast
  · -- One place below, the lengths of the two numbers decide.
    have exponent : (num.log2 : Int) - den.log2 - 1 = (num.log2 : Nat) - (den.log2 + 1 : Nat) := by
      push_cast
      ring
    have leading : (2 : Rat) ^ num.log2 ≤ num := by exact_mod_cast Nat.log2_self_le positive.ne'
    have length : (den : Rat) ≤ 2 ^ (den.log2 + 1) := by exact_mod_cast Nat.lt_log2_self.le
    rw [exponent, zpow_sub₀ two_ne_zero, zpow_natCast, zpow_natCast]
    exact div_le_div₀ (Nat.cast_nonneg num) leading positiveDen length

/-- A significand in units of its last place differs from the quotient by half a unit at most. -/
theorem significand_error (num : Nat) {den : Nat} (positive : 0 < den) :
    |scaled (significand num den) (placeExponent num den) - num / den| ≤
      (2 : Rat) ^ (placeExponent num den - 1) := by
  rw [scaled_eq, significand]
  generalize placeExponent num den = e
  have unit : (0 : Rat) < 2 ^ e := by positivity
  have shifted : 0 < den <<< e.toNat := by
    rw [Nat.shiftLeft_eq]
    positivity
  -- In units of the last place, the error is that of rounding to a natural number.
  have error := divideHalfEven_error (num <<< (-e).toNat) shifted
  rw [shifted_quotient] at error
  generalize (divideHalfEven (num <<< (-e).toNat) (den <<< e.toNat) : Rat) = m at error
  calc |m * 2 ^ e - num / den| = |m - num / den / 2 ^ e| * 2 ^ e := by
        rw [← abs_of_pos unit, ← abs_mul, abs_of_pos unit, sub_mul, div_mul_cancel₀ _ unit.ne']
    _ ≤ 1 / 2 * 2 ^ e := mul_le_mul_of_nonneg_right error unit.le
    _ = 2 ^ (e - 1) := by
        rw [zpow_sub_one₀ two_ne_zero]
        ring

/-- Half a unit in the last place is that of the leading digit or that of the smallest doubles. -/
theorem half_unit_le {num den : Nat} (positive : 0 < num) (positive' : 0 < den) :
    (2 : Rat) ^ (placeExponent num den - 1) ≤ num / den / 2 ^ 53 + 1 / 2 ^ 1075 := by
  have smallest : (2 : Rat) ^ (-1074 - 1 : Int) = 1 / 2 ^ 1075 := by
    rw [one_div, ← zpow_natCast, ← zpow_neg]
    rfl
  rw [placeExponent]
  -- Only close to zero is the last place that of the smallest doubles.
  rcases le_total (leadingExponent num den - 52) (-1074) with least | leading
  · rw [max_eq_right least, smallest]
    exact le_add_of_nonneg_left (by positivity)
  · have exponent : leadingExponent num den - 52 - 1 = leadingExponent num den - (53 : Nat) := by
      push_cast
      ring
    have digit := div_le_div_of_nonneg_right (leadingExponent_le positive positive')
      (by positivity : (0 : Rat) ≤ 2 ^ 53)
    rw [max_eq_left leading, exponent, zpow_sub₀ two_ne_zero, zpow_natCast]
    exact digit.trans (le_add_of_nonneg_right (by positivity))

/-- The quotient that is rounded for a number is its absolute value. -/
theorem natAbs_div_den (x : Rat) : (x.num.natAbs : Rat) / x.den = |x| := by
  rw [Rat.abs_def, Rat.divInt_eq_div]
  rfl

/-- The double nearest to a number differs from it by half a unit in the last place at most. -/
theorem nearest_error {x y : Rat} (rounded : nearest x = some y) :
    |y - x| ≤ |x| / 2 ^ 53 + 1 / 2 ^ 1075 := by
  rcases eq_or_ne x 0 with rfl | nonzero
  · -- Zero has no leading digit, but is a double itself.
    have zero : nearest 0 = some 0 := by decide +kernel
    obtain rfl : 0 = y := Option.some.inj (zero.symm.trans rounded)
    rw [sub_zero, abs_zero, zero_div, zero_add]
    positivity
  -- Otherwise the error in units of the last place is one in terms of the number itself.
  have error := (significand_error x.num.natAbs x.den_pos).trans
    (half_unit_le (Int.natAbs_pos.mpr (Rat.num_ne_zero.mpr nonzero)) x.den_pos)
  rw [natAbs_div_den] at error
  rw [nearest] at rounded
  split at rounded
  · cases rounded
    -- The sign is put back after rounding, on both sides of the difference.
    split
    · rename_i negative
      rw [abs_of_neg (Rat.num_neg.mp negative), sub_neg_eq_add] at error
      rwa [abs_of_neg (Rat.num_neg.mp negative), ← abs_neg, neg_sub, sub_neg_eq_add, add_comm x]
    · rename_i nonneg
      rwa [abs_of_nonneg (Rat.num_nonneg.mp (not_lt.mp nonneg))] at error ⊢
  · cases rounded

end Clifford.Binary64
