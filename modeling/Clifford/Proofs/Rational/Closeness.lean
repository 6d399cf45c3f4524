import Clifford.Proofs.Rational.Parents

/-! The gate keeps a number, drops a tiny one or moves it to a parent that is close to it. -/

namespace Clifford

/-- The relative error of the gate: its tolerance with a margin for the rounding of doubles. -/
def gateMargin : Rat := 100001 / 10 ^ 12

/-- A magnitude below which the gate drops every number with a large denominator. -/
def gateFloor : Rat := 999999 / 10 ^ 13

/-- The absolute value that decides about signs by a comparison. -/
theorem rat_abs_eq (x : Rat) : x.abs = |x| := by
  rw [Rat.abs]
  split
  · rename_i nonneg
    exact (abs_of_nonneg nonneg).symm
  · rename_i negative
    exact (abs_of_neg (not_le.mp negative)).symm

/-- The tolerance as a quotient. -/
theorem gateTolerance_eq : gateTolerance = 944473296573929 / 2 ^ 73 := by decide +kernel

/-- The error of rounding, where half a unit of the smallest doubles is replaced by a larger amount. -/
theorem nearest_close {x y : Rat} (rounded : Binary64.nearest x = some y) :
    |y - x| ≤ |x| / 2 ^ 53 + 1 / 2 ^ 100 := by
  have smallest : (1 : Rat) / 2 ^ 1075 ≤ 1 / 2 ^ 100 :=
    one_div_le_one_div_of_le (by positivity) (pow_le_pow_right₀ one_le_two (by norm_num))
  exact (Binary64.nearest_error rounded).trans (add_le_add le_rfl smallest)

/-- A nearest double is given where there is one. -/
theorem nearestDouble_eq_ok {x y : Rat} : nearestDouble x = .ok y ↔ Binary64.nearest x = some y := by
  rw [nearestDouble]
  split
  · rename_i found
    rw [found]
    simp
  · rename_i none
    rw [none]
    simp

section Rounded

variable {x v : Rat}

/-- A number whose double is below the tolerance is tiny itself. -/
theorem tiny_of_nearest (rounded : Binary64.nearest x = some v) (tiny : |v| < gateTolerance) :
    |x| < gateMargin := by
  -- Rounding moves the number by less than the margin leaves above the tolerance.
  have error := nearest_close rounded
  have distance := abs_sub_abs_le_abs_sub x v
  rw [abs_sub_comm] at distance
  rw [gateTolerance_eq] at tiny
  rw [gateMargin]
  linarith

/-- A number below the floor has a double below the tolerance. -/
theorem nearest_tiny (rounded : Binary64.nearest x = some v) (small : |x| ≤ gateFloor) :
    |v| < gateTolerance := by
  -- What rounding may add still fits between the floor and the tolerance.
  have error := nearest_close rounded
  have distance := abs_sub_abs_le_abs_sub v x
  rw [gateFloor] at small
  rw [gateTolerance_eq]
  linarith

/-- A number is accepted for another one only if it is close to it. -/
theorem close_of_gateAccepts {c r : Rat} (value : Binary64.nearest x = some v)
    (large : gateTolerance ≤ |v|) (rounded : Binary64.nearest c = some r)
    (accepted : gateAccepts r v = true) : |c - x| ≤ gateMargin * |x| := by
  rw [gateAccepts] at accepted
  split at accepted
  · rename_i error limit nearError nearLimit
    rw [decide_eq_true_iff, rat_abs_eq] at accepted
    rw [rat_abs_eq] at nearLimit
    -- Four roundings lie between the distance and the tolerance.
    have errorOfValue := nearest_close value
    have errorOfCandidate := nearest_close rounded
    have errorOfDistance := nearest_close nearError
    have errorOfLimit := (le_abs_self _).trans (nearest_close nearLimit)
    rw [abs_mul, abs_abs, abs_of_pos (by decide +kernel : 0 < gateTolerance)] at errorOfLimit
    have doubles : |r - v| ≤ |error| + |error - (r - v)| := by
      linarith [abs_sub_abs_le_abs_sub (r - v) error, abs_sub_comm error (r - v)]
    have distance : |c - x| ≤ |r - c| + |r - v| + |v - x| := by
      rw [abs_sub_comm r c]
      linarith [abs_sub_le c r x, abs_sub_le r v x]
    have candidate : |c| ≤ |x| + |c - x| := by
      linarith [abs_sub_abs_le_abs_sub c x]
    have double : |v| ≤ |x| + |v - x| := by
      linarith [abs_sub_abs_le_abs_sub v x]
    -- The value is large, so the smallest doubles are a small part of it.
    rw [gateTolerance_eq] at large errorOfLimit
    rw [gateMargin]
    linarith
  · cases accepted

end Rounded

section Gate

variable {x z : Rat}

/-- A number that stands in for another one is one of its parents. -/
theorem parents_of_gateCandidate {c : Rat} (fraction : 1 < x.den)
    (candidate : gateCandidate x.num x.den = .ok c) :
    ∃ left right, SternBrocot.Parents x.num x.den left right ∧
      (c = Rat.divInt left.1 left.2 ∨ c = Rat.divInt right.1 right.2) := by
  have coprime : Int.gcd x.num x.den = 1 := x.reduced
  obtain ⟨left, right, found, family⟩ :=
    SternBrocot.parents_spec (by exact_mod_cast fraction) coprime
  rw [gateCandidate, found] at candidate
  cases candidate
  -- The parity of the numerator decides on which side the parent is taken.
  refine ⟨left, right, family, ?_⟩
  split
  · exact .inr rfl
  · exact .inl rfl

/-- A number that stands in for another one has a smaller denominator. -/
theorem den_gateCandidate_lt {c : Rat} (fraction : 1 < x.den)
    (candidate : gateCandidate x.num x.den = .ok c) : c.den < x.den := by
  obtain ⟨left, right, family, either⟩ := parents_of_gateCandidate fraction candidate
  have sum := family.den_eq
  have leftPositive := family.leftPositive
  have rightPositive := family.rightPositive
  -- Both denominators are positive and add up to that of the number.
  rcases either with rfl | rfl
  · have := Int.le_of_dvd leftPositive (Rat.den_dvd left.1 left.2)
    omega
  · have := Int.le_of_dvd rightPositive (Rat.den_dvd right.1 right.2)
    omega

/-- A quotient lies within a whole bound where its numerator lies within the multiple of its
denominator. -/
theorem abs_divInt_le {n d bound : Int} (positive : 0 < d) :
    |Rat.divInt n d| ≤ bound ↔ |n| ≤ bound * d := by
  have positive' : (0 : Rat) < d := by exact_mod_cast positive
  rw [Rat.divInt_eq_div, abs_div, abs_of_pos positive', div_le_iff₀ positive', ← Int.cast_abs]
  exact_mod_cast Iff.rfl

/-- A number that stands in for another one lies within every whole bound on it. -/
theorem gateCandidate_within {c : Rat} {bound : Int} (fraction : 1 < x.den) (inside : |x| ≤ bound)
    (candidate : gateCandidate x.num x.den = .ok c) : |c| ≤ bound := by
  obtain ⟨left, right, family, either⟩ := parents_of_gateCandidate fraction candidate
  have small : |x.num| ≤ bound * x.den := by
    rwa [← abs_divInt_le (by exact_mod_cast x.den_pos), Rat.num_divInt_den]
  obtain ⟨leftInside, rightInside⟩ := family.within (by exact_mod_cast fraction) small
  rcases either with rfl | rfl
  · exact (abs_divInt_le family.leftPositive).mpr leftInside
  · exact (abs_divInt_le family.rightPositive).mpr rightInside

/-- A number that the gate looks at is no integer. -/
theorem one_lt_den (large : gateThreshold ≤ x.den) : 1 < x.den := lt_of_lt_of_le (by decide) large

/-- What the gate does: it keeps a number, drops a tiny one, or moves it to a parent close to it. -/
inductive GateStep (x : Rat) : Rat → Prop
  | keeps : GateStep x x
  | drops : gateThreshold ≤ x.den → |x| < gateMargin → GateStep x 0
  | moves {c : Rat} : gateThreshold ≤ x.den → gateCandidate x.num x.den = .ok c →
      |c - x| ≤ gateMargin * |x| → GateStep x c

/-- The gate takes one of its steps. -/
theorem gateStep_of_gate (gated : gate x = .ok z) : GateStep x z := by
  -- The cases follow the tests of the gate.
  rw [gate] at gated
  -- A small denominator is not looked at.
  split at gated
  · cases gated
    exact .keeps
  · rename_i large
    obtain ⟨v, value, rest⟩ := Result.bind_eq_ok.mp gated
    rw [rat_abs_eq] at rest
    have nearest : Binary64.nearest x = some v := nearestDouble_eq_ok.mp value
    split at rest
    · -- A double below the tolerance drops the number.
      rename_i tiny
      cases rest
      exact .drops (not_lt.mp large) (tiny_of_nearest nearest tiny)
    · rename_i notTiny
      obtain ⟨c, candidate, rest⟩ := Result.bind_eq_ok.mp rest
      obtain ⟨r, rounded, done⟩ := Result.bind_eq_ok.mp rest
      cases done
      -- Otherwise the candidate is taken where it is accepted, and the number is kept where not.
      split
      · rename_i accepted
        exact .moves (not_lt.mp large) candidate (close_of_gateAccepts nearest (not_lt.mp notTiny)
          (nearestDouble_eq_ok.mp rounded) accepted)
      · exact .keeps

/-- A number below the floor is dropped, unless its denominator is small. -/
theorem gate_eq_zero (large : gateThreshold ≤ x.den) (small : |x| ≤ gateFloor) :
    gate x = .ok 0 := by
  -- The number has a double, since it is far inside the range.
  obtain ⟨v, value⟩ := exists_nearestDouble (x := x)
    (small.trans ((by decide +kernel : gateFloor ≤ 1).trans (one_le_pow₀ one_le_two)))
  have tiny := nearest_tiny (nearestDouble_eq_ok.mp value) small
  rw [gate, if_neg (not_lt.mpr large), value, Result.ok_bind, rat_abs_eq, if_pos tiny]
  rfl

/-- A number other than zero that the gate drops. -/
def GateDrops (x : Rat) : Prop := x ≠ 0 ∧ gate x = .ok 0

/-- Only tiny numbers with a large denominator are dropped. -/
theorem GateDrops.bounds (drops : GateDrops x) : gateThreshold ≤ x.den ∧ |x| < gateMargin := by
  obtain ⟨nonzero, gated⟩ := drops
  have step := gateStep_of_gate gated
  -- Zero stands in the type of the step, so it is named before the cases are split.
  generalize target : (0 : Rat) = z at step
  cases step with
  | keeps => exact absurd target.symm nonzero
  | drops large tiny => exact ⟨large, tiny⟩
  | moves large candidate close =>
    -- Zero is no parent that is close to the number.
    subst target
    have positive := abs_pos.mpr nonzero
    have margin : gateMargin < 1 := by decide +kernel
    rw [zero_sub, abs_neg] at close
    nlinarith

/-- All numbers below the floor with a large denominator are dropped. -/
theorem gateDrops_of_small (nonzero : x ≠ 0) (large : gateThreshold ≤ x.den)
    (small : |x| ≤ gateFloor) : GateDrops x := ⟨nonzero, gate_eq_zero large small⟩

namespace GateStep

/-- A step does not enlarge the denominator. -/
theorem den_le (step : GateStep x z) : z.den ≤ x.den := by
  cases step with
  | keeps => exact le_rfl
  | drops large => exact x.den_pos
  | moves large candidate =>
    exact (den_gateCandidate_lt (one_lt_den large) candidate).le

/-- A step does not leave the numbers within a whole bound. -/
theorem within (step : GateStep x z) {bound : Nat} (inside : |x| ≤ bound) : |z| ≤ bound := by
  cases step with
  | keeps => exact inside
  | drops =>
    rw [abs_zero]
    exact Nat.cast_nonneg bound
  | moves large candidate =>
    have inside' : |x| ≤ ((bound : Int) : Rat) := by exact_mod_cast inside
    exact_mod_cast gateCandidate_within (one_lt_den large) inside' candidate

/-- A step does not leave the range of doubles. -/
theorem range (step : GateStep x z) (inside : |x| ≤ 2 ^ 1000) : |z| ≤ 2 ^ 1000 := by
  -- The limit is an integer, and no step passes one.
  have whole : |x| ≤ ((2 ^ 1000 : Nat) : Rat) := by exact_mod_cast inside
  exact_mod_cast step.within whole

/-- A step enlarges a number by a small factor at most. -/
theorem abs_le (step : GateStep x z) : |z| ≤ (1 + gateMargin) * |x| := by
  have margin : 0 < gateMargin := by decide +kernel
  cases step with
  | keeps => nlinarith [abs_nonneg x]
  | drops =>
    rw [abs_zero]
    positivity
  | moves large candidate close => linarith [abs_sub_abs_le_abs_sub z x]

end GateStep

end Gate

end Clifford
