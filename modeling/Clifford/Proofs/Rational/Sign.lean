import Clifford.Proofs.Rational.ErrorBound

/-! Signs in gated arithmetic: rounding to a double does not depend on the sign, but a number and its
opposite are moved to parents on the same side of them. So the gate gives opposite numbers for both exactly
where it moves neither, and numbers that are nearly opposite in any case. -/

namespace Clifford

namespace Binary64

/-- The double nearest to the opposite of a number is the opposite one. -/
theorem nearest_neg (x : Rat) : nearest (-x) = (nearest x).map (- ·) := by
  rcases eq_or_ne x 0 with rfl | nonzero
  · -- Zero has no sign to give away.
    have zero : nearest 0 = some 0 := by decide +kernel
    rw [neg_zero, zero, Option.map_some, neg_zero]
  · -- Both have the same significand, and one of them has the sign.
    rw [nearest, nearest, Rat.neg_num, Int.natAbs_neg, Rat.neg_den]
    have := Rat.num_ne_zero.mpr nonzero
    split
    · by_cases negative : x.num < 0
      · rw [if_neg (by omega), if_pos negative, Option.map_some, neg_neg]
      · rw [if_pos (by omega), if_neg negative, Option.map_some]
    · rfl

end Binary64

namespace SternBrocot

/-- Opposite fractions have opposite parents, in the other order. -/
theorem parents_neg {num : Int} (nonzero : num ≠ 0) (den : Int) :
    parents (-num) den = (parents num den).map fun p =>
      ((-p.2.1, p.2.2), (-p.1.1, p.1.2)) := by
  rw [parents, parents]
  by_cases negative : num < 0
  · -- The parents of the positive one are those that are turned around.
    rw [if_neg (by omega), if_pos negative]
    cases parentsOfNonneg (-num) den with
    | error cause => rfl
    | ok p => simp [bind, Except.bind, pure, Except.pure, Except.map]
  · rw [if_pos (by omega), if_neg negative, neg_neg]
    cases parentsOfNonneg num den <;> rfl

end SternBrocot

section Gate

variable {x c d u w : Rat}

/-- What stands in for a number and for its opposite are no opposite numbers: one is the parent on the
left for both, or the parent on the right, since the parity of the numerator is the same. -/
theorem gateCandidate_neg_ne (fraction : 1 < x.den) (candidate : gateCandidate x.num x.den = .ok c)
    (opposite : gateCandidate (-x).num (-x).den = .ok d) : d ≠ -c := by
  have coprime : Int.gcd x.num x.den = 1 := x.reduced
  have nonzero : x.num ≠ 0 := by
    intro zero
    rw [zero, Int.gcd_zero_left, Int.natAbs_natCast] at coprime
    omega
  obtain ⟨left, right, found, family⟩ :=
    SternBrocot.parents_spec (by exact_mod_cast fraction) coprime
  -- The determinant of the parents is one, so they are different numbers.
  have distinct : Rat.divInt left.1 left.2 ≠ Rat.divInt right.1 right.2 := by
    rw [Ne, Rat.divInt_eq_divInt_iff family.leftPositive.ne' family.rightPositive.ne']
    have := family.neighbours
    omega
  rw [gateCandidate, found] at candidate
  rw [gateCandidate, Rat.neg_num, Rat.neg_den, SternBrocot.parents_neg nonzero, found] at opposite
  cases candidate
  cases opposite
  -- Both take the parent on the same side, which is the other one after the change of sign.
  by_cases even : x.num % 2 = 0
  · have even' : -x.num % 2 = 0 := by omega
    simpa [even, even', ← Rat.neg_divInt] using distinct
  · have odd : ¬ -x.num % 2 = 0 := by omega
    simpa [even, odd, ← Rat.neg_divInt] using distinct.symm

/-- What is dropped is dropped with either sign. -/
theorem gate_neg_eq_zero (gated : gate x = .ok 0) : gate (-x) = .ok 0 := by
  -- Zero is its own opposite, so a number is looked at that is dropped.
  rcases eq_or_ne x 0 with rfl | nonzero
  · rw [neg_zero, gated]
  have large : gateThreshold ≤ x.den := (GateDrops.bounds ⟨nonzero, gated⟩).1
  have step := gated
  rw [gate, if_neg (not_lt.mpr large)] at step
  obtain ⟨v, value, rest⟩ := Result.bind_eq_ok.mp step
  have opposite : nearestDouble (-x) = .ok (-v) := by
    rw [nearestDouble_eq_ok, Binary64.nearest_neg, nearestDouble_eq_ok.mp value, Option.map_some]
  split at rest
  · -- The doubles of both are opposite, so one is tiny with the other.
    rename_i tiny
    rw [rat_abs_eq] at tiny
    rw [gate, Rat.neg_den, if_neg (not_lt.mpr large), opposite, Result.ok_bind, rat_abs_eq, abs_neg,
      if_pos tiny]
    rfl
  · -- Otherwise zero would be a parent that is close to the number.
    rename_i notTiny
    rw [rat_abs_eq, not_lt] at notTiny
    obtain ⟨c, candidate, rest⟩ := Result.bind_eq_ok.mp rest
    obtain ⟨r, rounded, done⟩ := Result.bind_eq_ok.mp rest
    have given := Except.ok.inj done
    split at given
    · rename_i accepted
      have close := close_of_gateAccepts (nearestDouble_eq_ok.mp value) notTiny
        (nearestDouble_eq_ok.mp rounded) accepted
      have sign := sign_eq_of_close close
      rw [given, sign_zero, eq_comm, sign_eq_zero_iff] at sign
      exact absurd sign nonzero
    · exact absurd given nonzero

/-- A number and its opposite are not moved to opposite numbers. -/
theorem GateMoves.opposite_ne (gated : gate x = .ok c) (other : c ≠ x) (nonzero : c ≠ 0)
    (opposite : gate (-x) = .ok d) (other' : d ≠ -x) (nonzero' : d ≠ 0) : d ≠ -c := by
  obtain ⟨large, candidate⟩ := gateCandidate_of_gate gated other nonzero
  obtain ⟨-, candidate'⟩ := gateCandidate_of_gate opposite other' nonzero'
  -- Both are moved to candidates, which are on the same side.
  exact gateCandidate_neg_ne (one_lt_den large) candidate candidate'

/-- A number and its opposite are dropped together. -/
theorem gate_eq_zero_iff_neg (gated : gate x = .ok u) (opposite : gate (-x) = .ok w) :
    u = 0 ↔ w = 0 := by
  constructor
  · rintro rfl
    exact Except.ok.inj (opposite.symm.trans (gate_neg_eq_zero gated))
  · rintro rfl
    have back := gate_neg_eq_zero opposite
    rw [neg_neg] at back
    exact Except.ok.inj (gated.symm.trans back)

/-- The gate gives opposite numbers for a number and its opposite exactly where it moves neither. -/
theorem gate_neg_eq_iff (gated : gate x = .ok u) (opposite : gate (-x) = .ok w) :
    w = -u ↔ ¬ GateMoves x ∧ ¬ GateMoves (-x) := by
  have dropped := gate_eq_zero_iff_neg gated opposite
  constructor
  · rintro rfl
    -- If one of them is moved, the other one is moved as well, to a number that is not opposite.
    refine ⟨fun ⟨c, moved, other, nonzero⟩ => ?_, fun ⟨d, moved, other, nonzero⟩ => ?_⟩
    · cases Except.ok.inj (gated.symm.trans moved)
      exact GateMoves.opposite_ne gated other nonzero opposite (fun same => other (neg_inj.mp same))
        (neg_ne_zero.mpr nonzero) rfl
    · cases Except.ok.inj (opposite.symm.trans moved)
      exact GateMoves.opposite_ne gated (fun same => other (neg_inj.mpr same))
        (neg_ne_zero.mp nonzero) opposite other nonzero rfl
  · rintro ⟨still, still'⟩
    -- What is not moved is kept or dropped, and both are dropped together.
    rcases eq_or_ne u 0 with zero | nonzero
    · rw [dropped.mp zero, zero, neg_zero]
    · have kept : u = x := by
        by_contra other
        exact still ⟨u, gated, other, nonzero⟩
      have kept' : w = -x := by
        by_contra other
        exact still' ⟨w, opposite, other, mt dropped.mpr nonzero⟩
      rw [kept, kept']

/-- What the gate gives for a number and its opposite has opposite signs or is zero. -/
theorem gate_neg_sign (gated : gate x = .ok u) (opposite : gate (-x) = .ok w) :
    SignType.sign w = -SignType.sign u := by
  have dropped := gate_eq_zero_iff_neg gated opposite
  rcases eq_or_ne u 0 with zero | nonzero
  · rw [dropped.mp zero, zero, sign_zero]
    rfl
  · rw [((gateStep_of_gate gated).withinGate.close nonzero).1,
      ((gateStep_of_gate opposite).withinGate.close (mt dropped.mpr nonzero)).1, Left.sign_neg]

/-- What the gate gives for a number and its opposite is nearly opposite. -/
theorem gate_neg_close (gated : gate x = .ok u) (opposite : gate (-x) = .ok w) :
    |w + u| ≤ 2 * gateMargin * |x| := by
  have dropped := gate_eq_zero_iff_neg gated opposite
  -- Either both are zero, or each of them is as close as the gate keeps it.
  rcases eq_or_ne u 0 with zero | nonzero
  · have margin : 0 ≤ gateMargin := by decide +kernel
    rw [dropped.mp zero, zero, add_zero, abs_zero]
    positivity
  · have one := ((gateStep_of_gate gated).withinGate.close nonzero).2
    have other := ((gateStep_of_gate opposite).withinGate.close (mt dropped.mpr nonzero)).2
    rw [abs_neg] at other
    -- The sum is what is left of both errors.
    calc |w + u| = |(w - -x) + (u - x)| := by ring_nf
      _ ≤ |w - -x| + |u - x| := abs_add_le _ _
      _ ≤ 2 * gateMargin * |x| := by linarith

end Gate

namespace LowestTerms

/-- The gated results for a number and for its opposite: both are zero or they have opposite signs, they are
nearly opposite numbers, and they are opposite numbers exactly where the gate moves neither of the two,
among them all with a denominator below the threshold. -/
structure NearlyOpposite (z : Rat) (u w : LowestTerms) : Prop where
  eq_neg_iff : w = u.neg ↔ ¬ GateMoves z ∧ ¬ GateMoves (-z)
  exact : z.den < 2 ^ 10 → w = u.neg
  sign : SignType.sign w.value = -SignType.sign u.value
  close : |w.value + u.value| ≤ 2 * gateMargin * |z|

variable {x y : LowestTerms} {z : Rat}

/-- Inside the range of doubles a number and its opposite have gated results, which are nearly opposite. -/
theorem exists_nearlyOpposite (range : |z| ≤ 2 ^ 1000) :
    ∃ u w, (gate z).map ofRat = .ok u ∧ (gate (-z)).map ofRat = .ok w ∧ NearlyOpposite z u w := by
  obtain ⟨u, gated⟩ := exists_gate range
  obtain ⟨w, opposite⟩ := exists_gate ((abs_neg z).trans_le range)
  refine ⟨ofRat u, ofRat w, by rw [gated]; rfl, by rw [opposite]; rfl, ?_⟩
  have opposed : ofRat w = (ofRat u).neg ↔ w = -u := by
    rw [← value_injective.eq_iff, value_neg, value_ofRat, value_ofRat]
  refine ⟨opposed.trans (gate_neg_eq_iff gated opposite), fun small => opposed.mpr ?_, ?_, ?_⟩
  · -- Both denominators are below the threshold.
    have kept : gate z = .ok z := gateKeeps_of_small small
    have kept' : gate (-z) = .ok (-z) := gateKeeps_of_small (by rwa [Rat.neg_den])
    rw [Except.ok.inj (gated.symm.trans kept), Except.ok.inj (opposite.symm.trans kept')]
  · rw [value_ofRat, value_ofRat]
    exact gate_neg_sign gated opposite
  · rw [value_ofRat, value_ofRat]
    exact gate_neg_close gated opposite

/-- Gated arithmetic nearly respects signs: the sum and the product of opposite operands and the reverse
difference are the opposite results exactly where the gate moves neither the exact result nor its opposite.
All of them exist, and in any case they have the opposite signs and nearly the opposite values. -/
theorem signs_respected (left : |x.value| < 2 ^ 400) (right : |y.value| < 2 ^ 400) :
    (∃ u w, x.add y = .ok u ∧ x.neg.add y.neg = .ok w ∧ NearlyOpposite (x.value + y.value) u w) ∧
    (∃ u w, x.mul y = .ok u ∧ x.neg.mul y = .ok w ∧ NearlyOpposite (x.value * y.value) u w) ∧
    (∃ u w, y.sub x = .ok u ∧ x.sub y = .ok w ∧ NearlyOpposite (y.value - x.value) u w) := by
  -- All exact results lie in the range of doubles.
  have sum : |x.value| + |y.value| ≤ 2 ^ 1000 := by
    calc |x.value| + |y.value| ≤ 2 ^ 400 + 2 ^ 400 := add_le_add left.le right.le
      _ ≤ 2 ^ 1000 := by decide +kernel
  have product : |x.value * y.value| ≤ 2 ^ 1000 := by
    calc |x.value * y.value| = |x.value| * |y.value| := abs_mul _ _
      _ ≤ 2 ^ 400 * 2 ^ 400 := mul_le_mul left.le right.le (abs_nonneg _) (by positivity)
      _ ≤ 2 ^ 1000 := by decide +kernel
  -- The two sides of each equation are gated from one number and its opposite.
  refine ⟨?_, ?_, ?_⟩
  · have opposite : x.neg.value + y.neg.value = -(x.value + y.value) := by
      rw [value_neg, value_neg, neg_add]
    rw [add_eq, add_eq, opposite]
    exact exists_nearlyOpposite ((abs_add_le _ _).trans sum)
  · have opposite : x.neg.value * y.value = -(x.value * y.value) := by
      rw [value_neg, neg_mul]
    rw [mul_eq, mul_eq, opposite]
    exact exists_nearlyOpposite product
  · rw [sub_eq, sub_eq, ← neg_sub y.value]
    exact exists_nearlyOpposite ((abs_sub _ _).trans ((add_comm _ _).trans_le sum))

/-- A power of a third, whose denominator is large, is moved in neither sign. -/
theorem signs_respected_power :
    let x := ofRat (1 / 2187)
    let y := ofRat 1
    (|x.value| < 2 ^ 400 ∧ |y.value| < 2 ^ 400) ∧ x.neg.mul y = .ok (ofRat (-1 / 2187)) ∧
      x.mul y = .ok (ofRat (1 / 2187)) ∧
      ¬ GateMoves (x.value * y.value) ∧ ¬ GateMoves (-(x.value * y.value)) := by
  intro x y
  have left : |x.value| < 2 ^ 400 := by decide +kernel
  have right : |y.value| < 2 ^ 400 := by decide +kernel
  obtain ⟨-, ⟨u, w, product, opposite, nearly⟩, -⟩ := signs_respected left right
  have product' : x.mul y = .ok (ofRat (1 / 2187)) := by decide +kernel
  have opposite' : x.neg.mul y = .ok (ofRat (-1 / 2187)) := by decide +kernel
  cases product.symm.trans product'
  cases opposite.symm.trans opposite'
  exact ⟨⟨left, right⟩, opposite', product', nearly.eq_neg_iff.mp (by decide +kernel)⟩

/-- A product that is kept, and the opposite one, which is moved. -/
theorem not_signs_respected : ¬ ∀ x y : LowestTerms, |x.value| < 2 ^ 400 → |y.value| < 2 ^ 400 →
    (∀ u w, x.add y = .ok u → x.neg.add y.neg = .ok w → w = u.neg) ∧
    (∀ u w, x.mul y = .ok u → x.neg.mul y = .ok w → w = u.neg) ∧
    (∀ u w, y.sub x = .ok u → x.sub y = .ok w → w = u.neg) := by
  intro respected
  have product : (ofRat (9794 / 1031)).mul (ofRat 1) = .ok (ofRat (9794 / 1031)) := by decide +kernel
  have opposite : (ofRat (9794 / 1031)).neg.mul (ofRat 1) = .ok (ofRat (-9775 / 1029)) := by
    decide +kernel
  obtain ⟨-, products, -⟩ := respected (ofRat (9794 / 1031)) (ofRat 1) (by decide +kernel)
    (by decide +kernel)
  exact absurd (products _ _ product opposite) (by decide +kernel)

end LowestTerms

end Clifford
