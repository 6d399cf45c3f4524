import Clifford.Proofs.Rational.Closeness

/-! Growth of coefficients under repeated gated products: powers of a number in the unit interval stay in
it, and have small denominators until the gate drops them, where it drops them early enough. -/

namespace Clifford

/-- A power of a number, by gated products from the left. -/
def gatedPower (r : Rat) : Nat → Result Rat
  | 0 => .ok 1
  | k + 1 => do
    let x ← gatedPower r k
    gatedMul x r

/-- A number of products after which the gate has dropped the powers of every number that is smaller than
one and has a small denominator. -/
def gateHorizon : Nat := 17408

/-- What the gated powers of a number keep: they do not leave the unit interval, every factor
multiplies the denominator by that of the number at most, and the gate adds a small factor. -/
structure PowerBound (r : Rat) (k : Nat) (x : Rat) : Prop where
  unit : |x| ≤ 1
  den_le : x.den ≤ r.den ^ k
  abs_le : |x| ≤ ((1 + gateMargin) * |r|) ^ k

section Growth

variable {r x : Rat} {k : Nat}

/-- Products with a number in the unit interval. -/
theorem abs_mul_le_one (left : |x| ≤ 1) (right : |r| ≤ 1) : |x * r| ≤ 1 := by
  rw [abs_mul]
  exact mul_le_one₀ left (abs_nonneg r) right

/-- One more gated product keeps the bounds. -/
theorem PowerBound.step {z : Rat} (bound : PowerBound r k x) (unit : |r| ≤ 1)
    (product : gatedMul x r = .ok z) : PowerBound r (k + 1) z := by
  have step : GateStep (x * r) z := gateStep_of_gate product
  have margin : 0 ≤ 1 + gateMargin := by decide +kernel
  have inside : |x * r| ≤ (1 : Nat) := by exact_mod_cast abs_mul_le_one bound.unit unit
  refine ⟨by exact_mod_cast step.within inside, ?_, ?_⟩
  · -- A product has a denominator that divides the product of both, and the gate does not enlarge it.
    calc z.den ≤ (x * r).den := step.den_le
      _ ≤ x.den * r.den := Nat.le_of_dvd (Nat.mul_pos x.den_pos r.den_pos) (Rat.mul_den_dvd x r)
      _ ≤ r.den ^ k * r.den := Nat.mul_le_mul_right _ bound.den_le
      _ = r.den ^ (k + 1) := (pow_succ _ _).symm
  · -- Each step multiplies by the number and adds the error of the gate once.
    calc |z| ≤ (1 + gateMargin) * |x * r| := step.abs_le
      _ = (1 + gateMargin) * |r| * |x| := by rw [abs_mul, mul_comm |x|, mul_assoc]
      _ ≤ (1 + gateMargin) * |r| * ((1 + gateMargin) * |r|) ^ k :=
        mul_le_mul_of_nonneg_left bound.abs_le (by positivity)
      _ = ((1 + gateMargin) * |r|) ^ (k + 1) := (pow_succ' _ _).symm

/-- Gated powers of a number in the unit interval exist and keep the bounds. -/
theorem exists_gatedPower (unit : |r| ≤ 1) (k : Nat) :
    ∃ x, gatedPower r k = .ok x ∧ PowerBound r k x := by
  -- The bounds carry the induction: inside the unit interval no quotient of the gate overflows.
  induction k with
  | zero => exact ⟨1, rfl, by simp, by simp, by simp⟩
  | succ k ih =>
    obtain ⟨x, power, bound⟩ := ih
    have inside : |x * r| ≤ 2 ^ 1000 :=
      (abs_mul_le_one bound.unit unit).trans (one_le_pow₀ one_le_two)
    obtain ⟨z, product⟩ := exists_gate inside
    exact ⟨z, by rw [gatedPower, power]; exact product, bound.step unit product⟩

/-- A number other than zero is not smaller than the inverse of its denominator. -/
theorem one_div_den_le (nonzero : x ≠ 0) : 1 / (x.den : Rat) ≤ |x| := by
  have positive : (0 : Rat) < x.den := by exact_mod_cast x.den_pos
  have numerator : (1 : Rat) ≤ (x.num.natAbs : Rat) := by
    exact_mod_cast Int.natAbs_pos.mpr (Rat.num_ne_zero.mpr nonzero)
  rw [← Binary64.natAbs_div_den]
  exact div_le_div_of_nonneg_right numerator positive.le

/-- The gate gives zero for every number below its floor. -/
theorem gate_below_floor (small : |x| ≤ gateFloor) : gate x = .ok 0 := by
  rcases lt_or_ge x.den gateThreshold with exact | large
  · -- The only number this small with a small denominator is zero itself.
    have zero : x = 0 := by
      by_contra nonzero
      have denominator : (x.den : Rat) ≤ 1024 := by exact_mod_cast exact.le
      have least : (1 : Rat) / 1024 ≤ 1 / x.den :=
        one_div_le_one_div_of_le (by exact_mod_cast x.den_pos) denominator
      have floor : gateFloor < 1 / 1024 := by decide +kernel
      linarith [one_div_den_le nonzero]
    rw [zero]
    rfl
  · -- A large denominator lets the gate look at the number, which is then dropped.
    exact gate_eq_zero large small

/-- Once the bound on a power is below the floor of the gate, the gated power is zero. -/
theorem gatedPower_eq_zero (unit : |r| ≤ 1) {m : Nat}
    (below : ((1 + gateMargin) * |r|) ^ (m + 1) ≤ gateFloor) (later : m < k) :
    gatedPower r k = .ok 0 := by
  -- The first power below the floor is dropped, and products with zero are zero.
  obtain ⟨d, rfl⟩ := Nat.exists_eq_add_of_lt later
  induction d with
  | zero =>
    obtain ⟨x, power, bound⟩ := exists_gatedPower unit m
    have margin : 1 ≤ 1 + gateMargin := by decide +kernel
    have small : |x * r| ≤ gateFloor := by
      calc |x * r| = |x| * |r| := abs_mul x r
        _ ≤ ((1 + gateMargin) * |r|) ^ m * ((1 + gateMargin) * |r|) :=
          mul_le_mul bound.abs_le (le_mul_of_one_le_left (abs_nonneg r) margin) (abs_nonneg r)
            (by positivity)
        _ = ((1 + gateMargin) * |r|) ^ (m + 1) := (pow_succ _ _).symm
        _ ≤ gateFloor := below
    show gatedPower r (m + 1) = _
    rw [gatedPower, power]
    exact gate_below_floor small
  | succ d ih =>
    show gatedPower r (m + d + 1 + 1) = _
    rw [gatedPower, ih (by omega), Result.ok_bind, gatedMul, zero_mul]
    rfl

/-- A number in the unit interval is smaller than one by the inverse of its denominator at least, unless it
is one or minus one. -/
theorem abs_le_one_sub (inside : |x| < 1) : |x| ≤ 1 - 1 / (x.den : Rat) := by
  have positive : (0 : Rat) < x.den := by exact_mod_cast x.den_pos
  -- The bounds are about numerators, where less means less by one at least.
  rw [← Binary64.natAbs_div_den, div_lt_one positive] at inside
  rw [← Binary64.natAbs_div_den, le_sub_iff_add_le, ← add_div, div_le_one positive]
  exact_mod_cast inside

/-- The powers of a number that is smaller than one by a thousandth at least fall below the floor of the
gate, in spite of what it adds. -/
theorem late_power_below_floor (small : r.den < 2 ^ 10) (inside : |r| < 1) :
    ((1 + gateMargin) * |r|) ^ gateHorizon ≤ gateFloor := by
  have margin : 0 ≤ 1 + gateMargin := by decide +kernel
  have gap : |r| ≤ 1 - 1 / 1023 := by
    -- The largest denominator gives the smallest distance from one.
    have least : (1 : Rat) / 1023 ≤ 1 / r.den :=
      one_div_le_one_div_of_le (by exact_mod_cast r.den_pos)
        (by exact_mod_cast Nat.le_of_lt_succ small)
    linarith [abs_le_one_sub inside]
  calc ((1 + gateMargin) * |r|) ^ gateHorizon = (((1 + gateMargin) * |r|) ^ 1024) ^ 17 := by
        rw [← pow_mul]
        rfl
    _ ≤ (((1 + gateMargin) * (1 - 1 / 1023)) ^ 1024) ^ 17 := by gcongr
    _ ≤ (37 / 100) ^ 17 := by
      refine pow_le_pow_left₀ (by positivity) ?_ 17
      decide +kernel
    _ ≤ gateFloor := by decide +kernel

/-- The gate adds too little in up to 31 products to keep a small power above its floor. -/
theorem power_below_floor {m : Nat} (few : m ≤ 30) (small : |r| ^ (m + 1) ≤ 999 / 10 ^ 10) :
    ((1 + gateMargin) * |r|) ^ (m + 1) ≤ gateFloor := by
  have margin : 1 ≤ 1 + gateMargin := by decide +kernel
  calc ((1 + gateMargin) * |r|) ^ (m + 1) = (1 + gateMargin) ^ (m + 1) * |r| ^ (m + 1) := mul_pow _ _ _
    _ ≤ (1 + gateMargin) ^ 31 * (999 / 10 ^ 10) :=
      mul_le_mul (pow_le_pow_right₀ margin (by omega)) small (by positivity) (by positivity)
    _ ≤ gateFloor := by decide +kernel

/-- The numerator of a number in the unit interval is not larger than its denominator. -/
theorem natAbs_num_le_den (unit : |x| ≤ 1) : x.num.natAbs ≤ x.den := by
  rw [← Binary64.natAbs_div_den, div_le_one (by exact_mod_cast x.den_pos)] at unit
  exact_mod_cast unit

/-- A power that comes after the exact powers are dropped has a small denominator. -/
theorem den_lt_of_dropped (unit : |r| ≤ 1) {m : Nat} (dropped : |r| ^ (m + 1) ≤ 999 / 10 ^ 10)
    (denominators : r.den ^ m < 2 ^ 31) (after : m < k) (power : gatedPower r k = .ok x)
    (bound : PowerBound r k x) : x.den < 2 ^ 31 := by
  rcases Nat.eq_or_lt_of_le (Nat.one_le_iff_ne_zero.mpr r.den_ne_zero) with integer | fraction
  · -- The powers of an integer are integers.
    have := bound.den_le
    rw [← integer, one_pow] at this
    omega
  -- A denominator of two or more reaches the limit in 31 products, so the powers are dropped before.
  · have few : m ≤ 30 := by
      by_contra many
      have : 2 ^ 31 ≤ r.den ^ m :=
        (Nat.pow_le_pow_left fraction 31).trans (Nat.pow_le_pow_right r.den_pos (by omega))
      omega
    cases power.symm.trans (gatedPower_eq_zero unit (power_below_floor few dropped) after)
    norm_num

/-- In the end the powers are dropped, so no denominator is larger than those of the exact powers until
then. -/
theorem den_lt_of_late (small : r.den < 2 ^ 10) (unit : |r| ≤ 1) (power : gatedPower r k = .ok x)
    (bound : PowerBound r k x) : x.den < (2 ^ 10) ^ gateHorizon := by
  have above : 1 < (2 ^ 10) ^ gateHorizon := Nat.one_lt_pow (by decide) (by norm_num)
  rcases unit.eq_or_lt with integer | inside
  · -- One and minus one have integers as their powers.
    have whole : r.den = 1 := by
      rcases eq_or_eq_neg_of_abs_eq integer with rfl | rfl <;> rfl
    have least := bound.den_le
    rw [whole, one_pow] at least
    exact least.trans_lt above
  · -- Other powers grow up to the horizon and are zero behind it.
    rcases lt_or_ge k gateHorizon with early | late
    · calc x.den ≤ r.den ^ k := bound.den_le
        _ ≤ (2 ^ 10) ^ k := Nat.pow_le_pow_left small.le k
        _ < (2 ^ 10) ^ gateHorizon := Nat.pow_lt_pow_right (by norm_num) early
    · cases power.symm.trans (gatedPower_eq_zero unit (late_power_below_floor small inside) late)
      exact above

/-- The gated powers of a number in the unit interval exist and stay in it, and their denominators grow no
faster than those of the exact powers. Growth is bounded, since the powers of all numbers but the
integers are dropped in the end. Numerators and denominators stay below `2 ^ 31` for the first powers, and
for all of them where the exact powers are dropped before their denominators reach it. -/
theorem gatedPower_bounded (small : r.den < 2 ^ 10) (unit : |r| ≤ 1) (k : Nat) :
    ∃ x, gatedPower r k = .ok x ∧ |x| ≤ 1 ∧ x.den ≤ r.den ^ k ∧
      x.num.natAbs < (2 ^ 10) ^ gateHorizon ∧ x.den < (2 ^ 10) ^ gateHorizon ∧
      ((k ≤ 3 ∨ ∃ m, |r| ^ (m + 1) ≤ 999 / 10 ^ 10 ∧ r.den ^ m < 2 ^ 31) →
        x.num.natAbs < 2 ^ 31 ∧ x.den < 2 ^ 31) := by
  obtain ⟨x, power, bound⟩ := exists_gatedPower unit k
  have late := den_lt_of_late small unit power bound
  have numerator := natAbs_num_le_den bound.unit
  refine ⟨x, power, bound.unit, bound.den_le, numerator.trans_lt late, late, fun dropped => ?_⟩
  have den : x.den < 2 ^ 31 := by
    -- A few powers are small in any case; later ones are small as long as they are not dropped, and
    -- zero is.
    rcases dropped with first | ⟨m, dropped, denominators⟩
    · calc x.den ≤ r.den ^ k := bound.den_le
        _ ≤ (2 ^ 10) ^ k := Nat.pow_le_pow_left small.le k
        _ ≤ (2 ^ 10) ^ 3 := Nat.pow_le_pow_right (by norm_num) first
        _ < 2 ^ 31 := by norm_num
    · rcases le_or_gt k m with before | after
      · exact (bound.den_le.trans (Nat.pow_le_pow_right r.den_pos before)).trans_lt denominators
      · exact den_lt_of_dropped unit dropped denominators after power bound
  exact ⟨numerator.trans_lt den, den⟩

/-- The powers of a third are dropped after the fourteenth, which has a small denominator. -/
theorem gatedPower_bounded_third :
    (1 / 3 : Rat).den < 2 ^ 10 ∧ |(1 / 3 : Rat)| ≤ 1 ∧
      ∃ x, gatedPower (1 / 3) 1000 = .ok x ∧ x.num.natAbs < 2 ^ 31 ∧ x.den < 2 ^ 31 := by
  have den : (1 / 3 : Rat).den = 3 := by decide +kernel
  have small : (1 / 3 : Rat).den < 2 ^ 10 := by rw [den]; norm_num
  have unit : |(1 / 3 : Rat)| ≤ 1 := by norm_num
  obtain ⟨x, power, -, -, -, -, bounded⟩ := gatedPower_bounded small unit 1000
  exact ⟨small, unit, x, power, bounded (.inr ⟨14, by norm_num, by rw [den]; norm_num⟩)⟩

/-- The powers of a number with a small denominator do not all have one: a product that the gate moves to
a parent keeps nearly all of its denominator. -/
theorem gatedPower_large : ¬ ∀ (r : Rat) (k : Nat) (x : Rat), r.num.natAbs < 2 ^ 10 → r.den < 2 ^ 10 →
    |r| ≤ 1 → gatedPower r k = .ok x → x.num.natAbs < 2 ^ 31 ∧ x.den < 2 ^ 31 := by
  intro small
  have power : gatedPower (1000 / 1021) 4 = .ok (29087397301 / 31608787098) := by decide +kernel
  obtain ⟨-, den⟩ := small _ 4 _ (by decide +kernel) (by decide +kernel) (by norm_num) power
  exact absurd den (by decide +kernel)

end Growth

end Clifford
