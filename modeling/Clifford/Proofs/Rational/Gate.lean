import Clifford.Proofs.Rational.Exact
import Clifford.Proofs.Rational.Rounding
import Clifford.Proofs.Result

/-! The overflow gate on all numbers: it moves a number by one at most, fails by overflow alone, and does
not fail inside the range of doubles. -/

namespace Clifford

namespace SternBrocot

/-- A fraction is at most by one larger than a quotient. -/
def Near (num den : Int) (f : Fraction) : Prop :=
  |Rat.divInt f.1 f.2| ≤ (num : Rat) / den + 1

/-- A numerator has an inverse modulo a denominator that it has no factor in common with. -/
theorem exists_inverse {num den : Int} (positive : 0 < den) (coprime : Int.gcd num den = 1) :
    ∃ b, inverse? num den = some b ∧ 0 ≤ b ∧ b < den := by
  refine ⟨_, if_neg (not_or.mpr ⟨positive.ne', not_not.mpr coprime⟩), ?_, ?_⟩
  · exact Int.fmod_nonneg_of_pos _ positive
  · exact Int.fmod_lt_of_pos _ positive

/-- The numerator of the left parent is the quotient that is rounded down. -/
theorem fdiv_bounds (n : Int) {den : Int} (positive : 0 < den) :
    Int.fdiv n den * den ≤ n ∧ n < Int.fdiv n den * den + den := by
  -- The quotient and its remainder make up the numerator again.
  have split := Int.mul_fdiv_add_fmod n den
  have low := Int.fmod_nonneg_of_pos n positive
  have high := Int.fmod_lt_of_pos n positive
  constructor <;> nlinarith

/-- The left parent is near the fraction. -/
theorem near_left {num den b : Int} (nonneg : 0 ≤ num) (positive : 0 < den) (low : 0 ≤ b) :
    Near num den (Int.fdiv (num * b - 1) den, b) := by
  obtain ⟨below, above⟩ := fdiv_bounds (num * b - 1) positive
  generalize Int.fdiv (num * b - 1) den = a at below above
  have quotient : (0 : Rat) ≤ num / den := by positivity
  rw [Near, Rat.divInt_eq_div]
  -- A left parent without a denominator counts as zero, which is near everything.
  rcases low.eq_or_lt with rfl | low
  · simpa using by linarith
  · -- It lies between minus one and the fraction.
    have least : -1 ≤ a := by
      by_contra less
      nlinarith [mul_nonneg nonneg low.le]
    have least' : -(b : Rat) ≤ a := by
      have one : 1 ≤ b := low
      exact_mod_cast (by omega : -b ≤ a)
    have most : (a : Rat) / b ≤ num / den := by
      rw [div_le_div_iff₀ (by exact_mod_cast low) (by exact_mod_cast positive)]
      exact_mod_cast (by omega : a * den ≤ num * b)
    have positive' : (0 : Rat) < b := by exact_mod_cast low
    have atLeast : -1 ≤ (a : Rat) / b := by
      rw [le_div_iff₀ positive']
      linarith
    exact abs_le.mpr ⟨by linarith, by linarith⟩

/-- The right parent is near the fraction. -/
theorem near_right {num den b : Int} (nonneg : 0 ≤ num) (positive : 0 < den) (high : b < den) :
    Near num den (num - Int.fdiv (num * b - 1) den, den - b) := by
  obtain ⟨below, above⟩ := fdiv_bounds (num * b - 1) positive
  generalize Int.fdiv (num * b - 1) den = a at below above
  have quotient : (0 : Rat) ≤ num / den := by positivity
  have positive' : (0 : Rat) < den := by exact_mod_cast positive
  have rest : (1 : Rat) ≤ (den - b : Int) := by exact_mod_cast (by omega : 1 ≤ den - b)
  rw [Near, Rat.divInt_eq_div]
  -- The numerator is positive, and at most by the denominator larger than that of the fraction.
  have positiveNum : (0 : Rat) ≤ (num - a : Int) := by
    have : 0 ≤ num - a := by
      by_contra less
      nlinarith
    exact_mod_cast this
  have most : ((num - a : Int) : Rat) * den ≤ num * (den - b : Int) + den := by
    exact_mod_cast (by nlinarith : (num - a) * den ≤ num * (den - b) + den)
  rw [abs_of_nonneg (div_nonneg positiveNum (by linarith)), div_le_iff₀ (by linarith)]
  have cleared : ((num : Rat) / den + 1) * (den - b : Int) * den =
      num * (den - b : Int) + (den - b : Int) * den := by
    field_simp
  nlinarith

/-- A fraction has parents, and both are near it. -/
theorem exists_parents {num den : Int} (positive : 0 < den) (coprime : Int.gcd num den = 1) :
    ∃ left right, parents num den = .ok (left, right) ∧ Near |num| den left ∧ Near |num| den right := by
  -- Only numerators that are not negative have their parents computed; the inverse gives both at
  -- once.
  have nonneg {n : Int} (nonneg : 0 ≤ n) (coprime : Int.gcd n den = 1) :
      ∃ left right, parentsOfNonneg n den = .ok (left, right) ∧ Near n den left ∧
        Near n den right := by
    obtain ⟨b, found, low, high⟩ := exists_inverse positive coprime
    refine ⟨_, _, by rw [parentsOfNonneg, found], ?_, ?_⟩
    · exact near_left nonneg positive low
    · exact near_right nonneg positive high
  -- The parents of a negative fraction are those of its opposite.
  have opposite {n : Int} {f : Fraction} (near : Near n den f) : Near n den (-f.1, f.2) := by
    rw [Near, Rat.divInt_eq_div] at near ⊢
    rwa [Int.cast_neg, neg_div, abs_neg]
  -- Opposites change the order of the parents, so left and right change places.
  by_cases negative : num < 0
  · obtain ⟨left, right, found, nearLeft, nearRight⟩ := nonneg (n := -num) (by omega) (by rwa [Int.neg_gcd])
    refine ⟨(-right.1, right.2), (-left.1, left.2), ?_, ?_⟩
    · rw [parents, if_pos negative, found]
      rfl
    · rw [abs_of_neg negative]
      exact ⟨opposite nearRight, opposite nearLeft⟩
  · obtain ⟨left, right, found, near⟩ := nonneg (not_lt.mp negative) coprime
    exact ⟨left, right, by rwa [parents, if_neg negative], by rwa [abs_of_nonneg (not_lt.mp negative)]⟩

end SternBrocot

/-- The number that may stand in for another one exists, and is at most by one larger. -/
theorem exists_gateCandidate (x : Rat) :
    ∃ c, gateCandidate x.num x.den = .ok c ∧ |c| ≤ |x| + 1 := by
  have positive : (0 : Int) < x.den := by exact_mod_cast x.den_pos
  have coprime : Int.gcd x.num x.den = 1 := x.reduced
  obtain ⟨left, right, found, nearLeft, nearRight⟩ := SternBrocot.exists_parents positive coprime
  -- The fraction is in lowest terms, so its quotient is the number itself.
  have quotient : ((|x.num| : Int) : Rat) / (x.den : Int) = |x| := by
    conv_rhs => rw [← Rat.num_div_den x, abs_div]
    simp
  rw [SternBrocot.Near, quotient] at nearLeft nearRight
  rw [gateCandidate, found]
  refine ⟨_, rfl, ?_⟩
  split <;> assumption

namespace Binary64

/-- Rounding to a natural number adds one at most. -/
theorem divideHalfEven_le (n d : Nat) : divideHalfEven n d ≤ n / d + 1 := by
  rw [divideHalfEven]
  -- The remainder decides whether one is added, but never more than one.
  split_ifs <;> omega

/-- The exponent of the leading digit is that of the difference of the lengths, or one less. -/
theorem leadingExponent_bounds (num den : Nat) :
    (num.log2 : Int) - den.log2 - 1 ≤ leadingExponent num den ∧
      leadingExponent num den ≤ num.log2 - den.log2 := by
  rw [leadingExponent]
  split_ifs <;> omega

/-- A quotient of numbers of known lengths. -/
theorem log2_le {num den bits : Nat} (small : num ≤ 2 ^ bits * den) :
    num.log2 ≤ bits + den.log2 := by
  by_cases zero : num = 0
  · simp [zero]
  · -- A number is below the power of two that is one digit longer.
    have length : den < 2 ^ (den.log2 + 1) := Nat.lt_log2_self
    have bound : num < 2 ^ (bits + (den.log2 + 1)) := by
      rw [pow_add]
      exact small.trans_lt (Nat.mul_lt_mul_of_pos_left length (Nat.two_pow_pos bits))
    have := (Nat.log2_lt zero).mpr bound
    omega

/-- A significand in units of its last place is finite, where the quotient is. -/
theorem significand_lt {num den : Nat} (positive : 0 < den) (small : num ≤ 2 ^ 1001 * den) :
    significand num den <<< (placeExponent num den).toNat < 1 <<< 1024 := by
  have lengths := log2_le small
  obtain ⟨low, high⟩ := leadingExponent_bounds num den
  have place : placeExponent num den = max (leadingExponent num den - 52) (-1074) := rfl
  rw [significand]
  generalize placeExponent num den = e at place
  have rounded := divideHalfEven_le (num <<< (-e).toNat) (den <<< e.toNat)
  generalize divideHalfEven (num <<< (-e).toNat) (den <<< e.toNat) = m at rounded
  rw [Nat.shiftLeft_eq, Nat.one_shiftLeft]
  rw [Nat.shiftLeft_eq, Nat.shiftLeft_eq] at rounded
  -- The exponent of the last place decides on which side the quotient is shifted.
  by_cases large : 0 ≤ e
  · -- The last place of a large quotient is far below the range.
    have exponent : e.toNat ≤ 949 := by omega
    have none : (-e).toNat = 0 := by omega
    rw [none, pow_zero, mul_one, ← Nat.div_div_eq_div_mul] at rounded
    have whole : num / den ≤ 2 ^ 1001 := Nat.div_le_of_le_mul (by rwa [mul_comm den])
    calc m * 2 ^ e.toNat ≤ (num / den / 2 ^ e.toNat + 1) * 2 ^ e.toNat :=
          Nat.mul_le_mul_right _ rounded
      _ = num / den / 2 ^ e.toNat * 2 ^ e.toNat + 2 ^ e.toNat := by rw [add_mul, one_mul]
      _ ≤ 2 ^ 1001 + 2 ^ 949 := Nat.add_le_add ((Nat.div_mul_le_self _ _).trans whole)
          (Nat.pow_le_pow_right (by norm_num) exponent)
      _ < 2 ^ 1024 := by decide +kernel
  · -- A small quotient has a significand of limited length.
    have none : e.toNat = 0 := by omega
    rw [none, pow_zero, mul_one] at rounded
    rw [none, pow_zero, mul_one]
    have scaled : num * 2 ^ (-e).toNat ≤ 2 ^ 54 * den := by
      by_cases zero : num = 0
      · simp [zero]
      · calc num * 2 ^ (-e).toNat ≤ 2 ^ (num.log2 + 1) * 2 ^ (-e).toNat :=
              Nat.mul_le_mul_right _ Nat.lt_log2_self.le
          _ = 2 ^ (num.log2 + 1 + (-e).toNat) := (pow_add _ _ _).symm
          _ ≤ 2 ^ (54 + den.log2) := Nat.pow_le_pow_right (by norm_num) (by omega)
          _ = 2 ^ 54 * 2 ^ den.log2 := pow_add _ _ _
          _ ≤ 2 ^ 54 * den := Nat.mul_le_mul_left _ (Nat.log2_self_le positive.ne')
    have quotient : num * 2 ^ (-e).toNat / den ≤ 2 ^ 54 :=
      Nat.div_le_of_le_mul (by rwa [mul_comm den])
    calc m ≤ 2 ^ 54 + 1 := rounded.trans (Nat.add_le_add_right quotient 1)
      _ < 2 ^ 1024 := by decide +kernel

/-- Numbers up to `2 ^ 1001` have a nearest double. -/
theorem exists_nearest {x : Rat} (small : |x| ≤ 2 ^ 1001) : ∃ y, nearest x = some y := by
  have finite : x.num.natAbs ≤ 2 ^ 1001 * x.den := by
    -- The bound on the number is one on its numerator, after the denominator is cleared.
    rw [← natAbs_div_den, div_le_iff₀ (by exact_mod_cast x.den_pos)] at small
    exact_mod_cast small
  exact ⟨_, if_pos (significand_lt x.den_pos finite)⟩

end Binary64

section Gate

variable {x y : Rat}

/-- A number inside the range has a nearest double. -/
theorem exists_nearestDouble (small : |x| ≤ 2 ^ 1001) : ∃ y, nearestDouble x = .ok y := by
  obtain ⟨y, found⟩ := Binary64.exists_nearest small
  exact ⟨y, by rw [nearestDouble, found]⟩

/-- Inside the range of doubles both a number and what may stand in for it have a nearest double. -/
theorem exists_gateDoubles (small : |x| ≤ 2 ^ 1000) :
    ∃ c v r, gateCandidate x.num x.den = .ok c ∧ nearestDouble x = .ok v ∧ nearestDouble c = .ok r := by
  obtain ⟨c, found, near⟩ := exists_gateCandidate x
  -- The candidate is larger by one at most, for which the range of doubles has room.
  have wide : |x| + 1 ≤ 2 ^ 1001 := by
    rw [pow_succ', two_mul]
    exact add_le_add small (one_le_pow₀ one_le_two)
  obtain ⟨v, value⟩ := exists_nearestDouble ((le_add_of_nonneg_right zero_le_one).trans wide)
  obtain ⟨r, rounded⟩ := exists_nearestDouble (near.trans wide)
  exact ⟨c, v, r, found, value, rounded⟩

/-- Nearest doubles fail to exist by overflow alone. -/
theorem nearestDouble_error {cause : Error} (failed : nearestDouble x = .error cause) :
    cause = .quotientOverflow := by
  rw [nearestDouble] at failed
  split at failed
  · cases failed
  · cases failed
    rfl

/-- The gate fails by overflow alone. -/
theorem gate_error {cause : Error} (failed : gate x = .error cause) : cause = .quotientOverflow := by
  rw [gate] at failed
  -- The parents always exist, so that step of the gate has no failure of its own.
  obtain ⟨c, found, -⟩ := exists_gateCandidate x
  split at failed
  · cases failed
  · -- What remains are the two roundings, of the number and of its candidate.
    cases value : nearestDouble x with
    | error other =>
      rw [value] at failed
      cases failed
      exact nearestDouble_error value
    | ok v =>
      rw [value, Result.ok_bind] at failed
      split at failed
      · cases failed
      · rw [found, Result.ok_bind] at failed
        cases rounded : nearestDouble c with
        | error other =>
          rw [rounded] at failed
          cases failed
          exact nearestDouble_error rounded
        | ok r =>
          rw [rounded] at failed
          cases failed

/-- The gate gives a number that is at most by one larger. -/
theorem abs_le_of_gate (gated : gate x = .ok y) : |y| ≤ |x| + 1 := by
  rw [gate] at gated
  obtain ⟨c, found, near⟩ := exists_gateCandidate x
  split at gated
  · cases gated
    linarith
  · obtain ⟨v, -, rest⟩ := Result.bind_eq_ok.mp gated
    -- Dropping gives zero.
    split at rest
    · cases rest
      simpa using by positivity
    · rw [found, Result.ok_bind] at rest
      obtain ⟨r, -, done⟩ := Result.bind_eq_ok.mp rest
      cases done
      -- The gate gives the candidate or keeps the number, whichever is accepted.
      split
      · exact near
      · linarith

/-- The gate does not fail inside the range of doubles. -/
theorem exists_gate (small : |x| ≤ 2 ^ 1000) : ∃ y, gate x = .ok y := by
  rw [gate]
  obtain ⟨c, v, r, found, value, rounded⟩ := exists_gateDoubles small
  -- Whichever branch is taken, its parts exist.
  split
  · exact ⟨_, rfl⟩
  · rw [value, Result.ok_bind]
    split
    · exact ⟨_, rfl⟩
    · rw [found, Result.ok_bind, rounded, Result.ok_bind]
      exact ⟨_, rfl⟩

end Gate

end Clifford
