import Clifford.Proofs.Rational.Gate

/-! The parents of a fraction add up to it, have smaller denominators and are neighbours. -/

namespace Clifford.SternBrocot

/-- The Euclidean algorithm writes the greatest common divisor as a sum of multiples. -/
theorem bezout_spec (a b : Nat) : a * (bezout a b).1 + b * (bezout a b).2 = Nat.gcd a b := by
  -- The induction follows the divisions of the algorithm.
  induction a, b using bezout.induct with
  | case1 a =>
    rw [bezout]
    simp
  | case2 a b nonzero _ _ _ _ ih =>
    have division : (a : Int) = b * (a / b : Nat) + (a % b : Nat) := by
      exact_mod_cast (Nat.div_add_mod a b).symm
    rw [bezout, dif_neg nonzero, Nat.gcd_comm a b, Nat.gcd_rec b a, Nat.gcd_comm (a % b) b, ← ih]
    -- The quotient times the divisor comes off one multiple and goes into the other.
    linear_combination (bezout b (a % b)).2 * division

/-- An inverse modulo a denominator is one. -/
theorem dvd_inverse {num den b : Int} (positive : 0 < den) (found : inverse? num den = some b) :
    den ∣ num * b - 1 := by
  rw [inverse?] at found
  split at found
  · cases found
  · rename_i defined
    have coprime : Int.gcd num den = 1 := not_not.mp (not_or.mp defined).2
    cases found
    generalize same : num % den = r
    have residue : ((r.toNat : Nat) : Int) = r :=
      Int.toNat_of_nonneg (same ▸ Int.emod_nonneg num positive.ne')
    have modulus : ((den.natAbs : Nat) : Int) = den := Int.natAbs_of_nonneg positive.le
    have gcd : Nat.gcd r.toNat den.natAbs = 1 := by
      rw [← Int.gcd_natCast_natCast, residue, modulus, ← same, Int.gcd_emod, coprime]
    have equation := bezout_spec r.toNat den.natAbs
    rw [gcd, residue, modulus] at equation
    generalize (bezout r.toNat den.natAbs).1 = x at equation
    generalize (bezout r.toNat den.natAbs).2 = y at equation
    -- Both the numerator and the coefficient differ from their residues by multiples.
    have split := Int.mul_fdiv_add_fmod x den
    have split' := Int.mul_ediv_add_emod num den
    rw [same] at split'
    refine ⟨num / den * x - y - num * Int.fdiv x den, ?_⟩
    linear_combination num * split - x * split' + equation

/-- Two neighbours that a fraction is the sum of. -/
structure Parents (num den : Int) (left right : Fraction) : Prop where
  leftPositive : 0 < left.2
  rightPositive : 0 < right.2
  num_eq : left.1 + right.1 = num
  den_eq : left.2 + right.2 = den
  neighbours : right.1 * left.2 - left.1 * right.2 = 1

/-- A fraction other than an integer has its parents. -/
theorem parents_spec {num den : Int} (fraction : 1 < den) (coprime : Int.gcd num den = 1) :
    ∃ left right, parents num den = .ok (left, right) ∧ Parents num den left right := by
  -- A negative fraction has the parents of its opposite, with opposite signs and in the other order.
  have nonneg {n : Int} (coprime : Int.gcd n den = 1) :
      ∃ left right, parentsOfNonneg n den = .ok (left, right) ∧ Parents n den left right := by
    -- The inverse is the denominator of the left parent, and what it lacks is that of the right one.
    obtain ⟨b, found, low, high⟩ := exists_inverse (by omega) coprime
    have whole : Int.fdiv (n * b - 1) den * den = n * b - 1 :=
      Int.fdiv_mul_cancel (dvd_inverse (by omega) found)
    have positive : 0 < b := by
      rcases low.eq_or_lt with rfl | positive
      · -- Minus one is no multiple of a denominator other than one.
        have unit : den ∣ -1 := by simpa using dvd_inverse (by omega) found
        have := Int.le_of_dvd one_pos (Int.dvd_neg.mp unit)
        omega
      · exact positive
    refine ⟨_, _, by rw [parentsOfNonneg, found], ⟨positive, Int.sub_pos.mpr high, ?_, ?_, ?_⟩⟩
    · exact add_sub_cancel _ _
    · exact add_sub_cancel _ _
    · -- The numerators are such that the determinant is what the inverse leaves over.
      linear_combination -whole
  rw [parents]
  split
  · obtain ⟨left, right, found, family⟩ := nonneg (n := -num) (by rwa [Int.neg_gcd])
    refine ⟨(-right.1, right.2), (-left.1, left.2), by rw [found]; rfl, ?_⟩
    exact {
      leftPositive := family.rightPositive
      rightPositive := family.leftPositive
      num_eq := by linear_combination -family.num_eq
      den_eq := by linear_combination family.den_eq
      neighbours := by linear_combination family.neighbours }
  · exact nonneg coprime

namespace Parents

variable {num den : Int} {left right : Fraction}

/-- The left parent is by the smallest possible amount smaller. -/
theorem left_gap (family : Parents num den left right) : num * left.2 - left.1 * den = 1 := by
  linear_combination family.neighbours - left.2 * family.num_eq + left.1 * family.den_eq

/-- The right parent is by the smallest possible amount larger. -/
theorem right_gap (family : Parents num den left right) : right.1 * den - num * right.2 = 1 := by
  linear_combination family.neighbours + right.2 * family.num_eq - right.1 * family.den_eq

/-- The parents of a fraction lie within every whole bound on it. -/
theorem within (family : Parents num den left right) (fraction : 1 < den) {bound : Int}
    (inside : |num| ≤ bound * den) : |left.1| ≤ bound * left.2 ∧ |right.1| ≤ bound * right.2 := by
  obtain ⟨least, most⟩ := abs_le.mp inside
  have leftGap := family.left_gap
  have rightGap := family.right_gap
  have leftPositive := family.leftPositive
  have rightPositive := family.rightPositive
  have leftLeast := mul_le_mul_of_nonneg_right least leftPositive.le
  have leftMost := mul_le_mul_of_nonneg_right most leftPositive.le
  have rightLeast := mul_le_mul_of_nonneg_right least rightPositive.le
  have rightMost := mul_le_mul_of_nonneg_right most rightPositive.le
  -- A parent outside would be further away from the fraction than its gap.
  refine ⟨abs_le.mpr ⟨?_, ?_⟩, abs_le.mpr ⟨?_, ?_⟩⟩ <;> by_contra outside <;> nlinarith

end Parents

end Clifford.SternBrocot
