import Mathlib
import Clifford.Rational.Arithmetic

/-! Exact coefficients: numbers whose denominator is a small power of two pass the gate. -/

namespace Clifford

/-- A rational whose denominator divides a power of two. -/
def Dyadic (k : Nat) (q : Rat) : Prop := ∃ n : Int, q = n / 2 ^ k

namespace Dyadic

variable {k l : Nat} {p q : Rat}

/-- Integers have a denominator of one. -/
theorem intCast (n : Int) : Dyadic 0 n := ⟨n, by simp⟩

/-- A larger power of two serves as well. -/
theorem mono (dyadic : Dyadic k q) (le : k ≤ l) : Dyadic l q := by
  obtain ⟨n, rfl⟩ := dyadic
  obtain ⟨d, rfl⟩ := Nat.exists_eq_add_of_le le
  -- The numerator takes up the powers of two that the denominator gains.
  refine ⟨n * 2 ^ d, ?_⟩
  push_cast
  rw [pow_add]
  field_simp

/-- Zero has every denominator. -/
theorem zero (k : Nat) : Dyadic k 0 := ⟨0, by simp⟩

/-- One has every denominator. -/
theorem one (k : Nat) : Dyadic k 1 := by simpa using (intCast 1).mono (Nat.zero_le k)

/-- Sums keep the denominator. -/
theorem add (left : Dyadic k p) (right : Dyadic k q) : Dyadic k (p + q) := by
  obtain ⟨m, rfl⟩ := left
  obtain ⟨n, rfl⟩ := right
  exact ⟨m + n, by push_cast; ring⟩

/-- Negatives keep the denominator. -/
theorem neg (dyadic : Dyadic k q) : Dyadic k (-q) := by
  obtain ⟨n, rfl⟩ := dyadic
  exact ⟨-n, by push_cast; ring⟩

/-- Products multiply the denominators. -/
theorem mul (left : Dyadic k p) (right : Dyadic l q) : Dyadic (k + l) (p * q) := by
  obtain ⟨m, rfl⟩ := left
  obtain ⟨n, rfl⟩ := right
  exact ⟨m * n, by push_cast; rw [pow_add]; ring⟩

/-- The denominator in lowest terms divides the power of two. -/
theorem den_dvd (dyadic : Dyadic k q) : q.den ∣ 2 ^ k := by
  obtain ⟨n, rfl⟩ := dyadic
  have quotient : (n : Rat) / 2 ^ k = Rat.divInt n (2 ^ k) := by
    rw [Rat.divInt_eq_div]
    push_cast
    rfl
  -- The quotient is not reduced, so its denominator only divides the power.
  rw [quotient]
  exact_mod_cast Rat.den_dvd n (2 ^ k)

/-- A denominator in lowest terms that divides the power of two can be extended to it. -/
theorem of_den_dvd (divides : q.den ∣ 2 ^ k) : Dyadic k q := by
  obtain ⟨c, power⟩ := divides
  have nonzero : (q.den : Rat) ≠ 0 := by exact_mod_cast q.den_nz
  have power : (2 : Rat) ^ k = q.den * c := by exact_mod_cast power
  have cofactor : (c : Rat) ≠ 0 := by
    rintro zero
    simp [zero] at power
  refine ⟨q.num * c, ?_⟩
  rw [power]
  push_cast
  rw [mul_div_mul_right _ _ cofactor, Rat.num_div_den]

/-- The integers are the numbers without a denominator. -/
theorem zero_iff : Dyadic 0 q ↔ q.den = 1 := by
  constructor
  · intro dyadic
    simpa using dyadic.den_dvd
  · intro whole
    exact ⟨q.num, by simpa using (Rat.coe_int_num_of_den_eq_one whole).symm⟩

end Dyadic

/-- Denominators up to this power of two stay below the threshold of the gate. -/
def exactBits : Nat := 9

section Exact

variable {k l : Nat} {p q : Rat}

/-- Zero passes the gate. -/
theorem gate_zero : gate 0 = .ok 0 := by
  rw [gate, Rat.den_zero, if_pos (by decide)]

/-- The gate keeps a number with a small power of two as its denominator. -/
theorem gate_eq_ok (dyadic : Dyadic k q) (small : k ≤ exactBits) : gate q = .ok q := by
  -- A power of two up to the ninth is below the threshold, and the denominator divides it.
  have bound : q.den ≤ 2 ^ exactBits :=
    (Nat.le_of_dvd (Nat.two_pow_pos k) dyadic.den_dvd).trans (Nat.pow_le_pow_right (by omega) small)
  have below : q.den < gateThreshold := bound.trans_lt (by decide)
  rw [gate, if_pos below]

/-- Sums of such numbers are exact. -/
theorem gatedAdd_eq_ok (left : Dyadic k p) (right : Dyadic k q) (small : k ≤ exactBits) :
    gatedAdd p q = .ok (p + q) := gate_eq_ok (left.add right) small

/-- Differences of such numbers are exact. -/
theorem gatedSub_eq_ok (left : Dyadic k p) (right : Dyadic k q) (small : k ≤ exactBits) :
    gatedSub p q = .ok (p - q) := by
  rw [gatedSub, sub_eq_add_neg]
  exact gate_eq_ok (left.add right.neg) small

/-- Products of such numbers are exact. -/
theorem gatedMul_eq_ok (left : Dyadic k p) (right : Dyadic l q) (small : k + l ≤ exactBits) :
    gatedMul p q = .ok (p * q) := gate_eq_ok (left.mul right) small

end Exact

end Clifford
