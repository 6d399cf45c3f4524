import Clifford.Proofs.Rational.ErrorBound

/-! Repeated gating: the gate moves a number by one step only, and what it gives may be moved again. Every
move makes the denominator smaller, so that it comes to rest, and it is at rest at once where the number
was kept or dropped or has come below the threshold. -/

namespace Clifford

/-- A relative distance at which the gate moves a number to the parent that may stand in for it. -/
def gateReach : Rat := 99999 / 10 ^ 12

section Gate

variable {x z c v r : Rat}

/-- A number that is close to another one is accepted for it. -/
theorem gateAccepts_of_close (range : |x| ≤ 2 ^ 1000) (value : Binary64.nearest x = some v)
    (large : gateTolerance ≤ |v|) (rounded : Binary64.nearest c = some r)
    (close : |c - x| ≤ gateReach * |x|) : gateAccepts r v = true := by
  -- The two quotients are rounded, then their difference and the product with the tolerance.
  have errorOfValue := nearest_close value
  have errorOfCandidate := nearest_close rounded
  have candidate : |c| ≤ |x| + |c - x| := by
    linarith [abs_sub_abs_le_abs_sub c x]
  have distance : |r - v| ≤ |r - c| + |c - x| + |v - x| := by
    rw [abs_sub_comm v x]
    linarith [abs_sub_le r c v, abs_sub_le c x v]
  have double : |x| ≤ |v| + |v - x| := by
    linarith [abs_sub_abs_le_abs_sub x v, abs_sub_comm x v]
  have double' : |v| ≤ |x| + |v - x| := by
    linarith [abs_sub_abs_le_abs_sub v x]
  have product : abs (gateTolerance * |v|) = gateTolerance * |v| :=
    abs_of_nonneg (mul_nonneg (by decide +kernel) (abs_nonneg v))
  rw [gateReach] at close
  -- Neither the difference nor the limit overflows.
  have one : (1 : Rat) ≤ 2 ^ 1000 := one_le_pow₀ one_le_two
  have wide : (2 : Rat) ^ 1001 = 2 * 2 ^ 1000 := pow_succ' 2 1000
  have smallDifference : |r - v| ≤ 2 ^ 1001 := by
    rw [wide]
    generalize (2 : Rat) ^ 1000 = most at range one
    linarith
  have smallLimit : abs (gateTolerance * |v|) ≤ 2 ^ 1001 := by
    rw [wide, product, gateTolerance_eq]
    generalize (2 : Rat) ^ 1000 = most at range one
    linarith
  obtain ⟨error, nearError⟩ := Binary64.exists_nearest smallDifference
  obtain ⟨limit, nearLimit⟩ := Binary64.exists_nearest smallLimit
  have errorOfDistance := nearest_close nearError
  have errorOfLimit := nearest_close nearLimit
  rw [gateAccepts, nearError, rat_abs_eq, nearLimit, decide_eq_true_iff, rat_abs_eq]
  rw [product, gateTolerance_eq] at errorOfLimit
  rw [gateTolerance_eq] at large
  have magnitude : |error| ≤ |r - v| + |error - (r - v)| := by
    linarith [abs_sub_abs_le_abs_sub error (r - v)]
  obtain ⟨low, -⟩ := abs_le.mp errorOfLimit
  -- The four rounding errors together are less than what the reach leaves of the tolerance.
  clear range smallDifference smallLimit wide one
  linarith

/-- A number with a large denominator that is not tiny is moved to a parent that is close enough. -/
theorem gate_eq_candidate (range : |x| ≤ 2 ^ 1000) (large : gateThreshold ≤ x.den)
    (visible : gateMargin ≤ |x|) (candidate : gateCandidate x.num x.den = .ok c)
    (close : |c - x| ≤ gateReach * |x|) : gate x = .ok c := by
  -- The number and its parent both have a double near them.
  obtain ⟨c', v, r, candidate', value, rounded⟩ := exists_gateDoubles range
  obtain rfl := Except.ok.inj (candidate.symm.trans candidate')
  have notTiny : ¬ |v| < gateTolerance := fun tiny =>
    absurd (tiny_of_nearest (nearestDouble_eq_ok.mp value) tiny) (not_lt.mpr visible)
  -- So none of the branches before the last one is taken.
  have accepted : gateAccepts r v = true := gateAccepts_of_close range
    (nearestDouble_eq_ok.mp value) (not_lt.mp notTiny) (nearestDouble_eq_ok.mp rounded) close
  rw [gate, if_neg (not_lt.mpr large), value, Result.ok_bind, rat_abs_eq, if_neg notTiny, candidate,
    Result.ok_bind, rounded, Result.ok_bind, if_pos accepted]
  rfl

/-- A number that is not tiny is kept if the parent that may stand in for it is too far away. -/
theorem gateKeeps_of_far (range : |x| ≤ 2 ^ 1000) (visible : gateMargin ≤ |x|)
    (candidate : gateCandidate x.num x.den = .ok c) (far : gateMargin * |x| < |c - x|) :
    GateKeeps x := by
  -- Among the steps of the gate only keeping is left.
  obtain ⟨z, gated, step⟩ := exists_gateStep range
  cases step with
  | keeps => exact gated
  | drops _ tiny => exact absurd tiny (not_lt.mpr visible)
  | moves _ candidate' close =>
    obtain rfl := Except.ok.inj (candidate.symm.trans candidate')
    exact absurd close (not_le.mpr far)

/-- A step that changes a number makes its denominator smaller. -/
theorem GateStep.den_lt (step : GateStep x z) (other : z ≠ x) : z.den < x.den := by
  cases step with
  | keeps => exact absurd rfl other
  | drops large => exact one_lt_den large
  | moves large candidate => exact den_gateCandidate_lt (one_lt_den large) candidate

/-- Only a number that the gate moves to one with a large denominator can be changed again. -/
theorem gateKeeps_of_gate (gated : gate x = .ok z) (rests : z = x ∨ z = 0 ∨ z.den < gateThreshold) :
    GateKeeps z := by
  rcases rests with rfl | rfl | small
  · exact gated
  · exact gate_zero
  · exact gateKeeps_of_small small

end Gate

/-- The numerator and the denominator of a number in lowest terms. -/
def lowestPair (x : Rat) : Int × Int := (x.num, x.den)

/-- The gate on a pair, and again on the pair that it gives, as often as asked for. -/
def gateRepeated : Nat → Int × Int → Result (Int × Int)
  | 0, p => .ok p
  | k + 1, p => do gateRepeated k (← gateFraction p.1 p.2)

/-- The gate on a reduced pair is that on its number. -/
theorem gateFraction_lowestPair (x : Rat) :
    gateFraction x.num x.den = (gate x).map lowestPair := by
  rw [LowestTerms.gateFraction_eq (by exact_mod_cast x.den_pos), Rat.num_divInt_den]
  rfl

/-- A reduced pair stands for one number. -/
theorem lowestPair_injective : Function.Injective lowestPair := by
  intro x y same
  -- Numerators and denominators make up the number.
  obtain ⟨num, den⟩ := Prod.mk.inj same
  exact Rat.ext num (by exact_mod_cast den)

/-- A reduced pair comes back from the gate if its number is kept. -/
theorem gateFraction_eq_self_iff {x : Rat} :
    gateFraction x.num x.den = .ok (lowestPair x) ↔ GateKeeps x := by
  rw [gateFraction_lowestPair, GateKeeps]
  cases gate x with
  | error cause => exact iff_of_false (by simp [Except.map]) (by simp)
  | ok z => simp [Except.map, lowestPair_injective.eq_iff]

/-- The gate comes to rest: after as many repetitions as the denominator is above the threshold at most, the
pair does not change any more. -/
theorem exists_gateRepeated (x : Rat) (range : |x| ≤ 2 ^ 1000) :
    ∃ k z, k + 1023 ≤ max x.den 1023 ∧ gateRepeated k (lowestPair x) = .ok (lowestPair z) ∧
      GateKeeps z := by
  -- The denominator becomes smaller with every change, and is not changed below the threshold.
  induction denominator : x.den using Nat.strong_induction_on generalizing x with
  | _ den ih =>
    obtain ⟨z, gated, step⟩ := exists_gateStep range
    rcases eq_or_ne z x with rfl | other
    · exact ⟨0, z, by omega, rfl, gated⟩
    · -- The number is changed, so its denominator is above the threshold and becomes smaller.
      have smaller := step.den_lt other
      have large : gateThreshold ≤ x.den := by
        by_contra small
        have kept : gate x = .ok x := gateKeeps_of_small (not_le.mp small)
        exact other (Except.ok.inj (gated.symm.trans kept))
      obtain ⟨k, w, bound, repeated, kept⟩ := ih z.den (denominator ▸ smaller) z (step.range range) rfl
      refine ⟨k + 1, w, ?_, ?_, kept⟩
      · have threshold : gateThreshold = 1024 := rfl
        omega
      · show (gateFraction x.num x.den >>= gateRepeated k) = _
        rw [gateFraction_lowestPair, gated]
        exact repeated

/-- What a second gate does to a number `z` that the gate gave for `x`. It keeps what the first one kept or
dropped, what has come below the threshold, and what is far from the parent that may stand in for it, but a
number that is close to that parent is moved on. Each change makes the denominator smaller, and in the end
there is none. -/
structure ComesToRest (x z : Rat) : Prop where
  rests : z = x ∨ z = 0 ∨ z.den < 2 ^ 10 → gateFraction z.num z.den = .ok (lowestPair z)
  far : ∀ c, gateMargin ≤ |z| → gateCandidate z.num z.den = .ok c → gateMargin * |z| < |c - z| →
    gateFraction z.num z.den = .ok (lowestPair z)
  close : ∀ c, 2 ^ 10 ≤ z.den → gateMargin ≤ |z| → gateCandidate z.num z.den = .ok c →
    |c - z| ≤ gateReach * |z| → gateFraction z.num z.den = .ok (lowestPair c) ∧ c ≠ z
  next : ∃ w, gateFraction z.num z.den = .ok (lowestPair w) ∧ (w = z ∨ w.den < z.den)
  settles : ∃ k w, k + 1023 ≤ max z.den 1023 ∧ gateRepeated k (lowestPair z) = .ok (lowestPair w) ∧
    gateFraction w.num w.den = .ok (lowestPair w)

/-- Whatever the gate gives comes to rest. -/
theorem comesToRest {x z : Rat} (range : |x| ≤ 2 ^ 1000) (gated : gate x = .ok z) :
    ComesToRest x z := by
  have range' : |z| ≤ 2 ^ 1000 := (gateStep_of_gate gated).range range
  obtain ⟨w, again, step⟩ := exists_gateStep range'
  refine ⟨fun rests => ?_, fun c visible candidate far => ?_, fun c large visible candidate close => ?_,
    ⟨w, by rw [gateFraction_lowestPair, again]; rfl, ?_⟩, ?_⟩
  · exact gateFraction_eq_self_iff.mpr (gateKeeps_of_gate gated rests)
  · exact gateFraction_eq_self_iff.mpr (gateKeeps_of_far range' visible candidate far)
  · -- The parent is another number, since it has a smaller denominator.
    refine ⟨?_, ?_⟩
    · rw [gateFraction_lowestPair, gate_eq_candidate range' large visible candidate close]
      rfl
    · rintro rfl
      exact absurd (den_gateCandidate_lt (one_lt_den large) candidate) (lt_irrefl _)
  · -- A second gate takes a step again, and the first one to keep the number is found by the
    -- repetition.
    exact or_iff_not_imp_left.mpr step.den_lt
  · obtain ⟨k, w, bound, repeated, kept⟩ := exists_gateRepeated z range'
    exact ⟨k, w, bound, repeated, gateFraction_eq_self_iff.mpr kept⟩

namespace LowestTerms

/-- A coefficient comes back from a neutral operation if the gate gives it back. -/
theorem map_gate_eq_self_iff (z : LowestTerms) :
    (gate z.value).map ofRat = .ok z ↔ gateFraction z.num z.den = .ok (z.num, z.den) := by
  have pair := gateFraction_eq_self_iff (x := z.value)
  -- The pair of a coefficient is the one of its value.
  rw [lowestPair, num_value, den_value] at pair
  rw [pair, GateKeeps]
  cases gate z.value with
  | error cause => exact iff_of_false (by simp [Except.map]) (by simp)
  | ok w => simp [Except.map, ← value_injective.eq_iff]

/-- A product with one gives a coefficient back if the gate does. -/
theorem mul_one_eq_self_iff (z : LowestTerms) :
    z.mul (ofRat 1) = .ok z ↔ gateFraction z.num z.den = .ok (z.num, z.den) := by
  rw [mul_eq, value_ofRat, mul_one, map_gate_eq_self_iff]

/-- A sum with zero gives a coefficient back if the gate does. -/
theorem add_zero_eq_self_iff (z : LowestTerms) :
    z.add (ofRat 0) = .ok z ↔ gateFraction z.num z.den = .ok (z.num, z.den) := by
  rw [add_eq, value_ofRat, add_zero, map_gate_eq_self_iff]

/-- A coefficient that arithmetic has made without rounding, as zero or below the threshold is given back
by the gate. -/
theorem gateFraction_of_apply {op : CoefficientOperator} {x y z : LowestTerms}
    (made : op.apply x y = .ok z)
    (rests : op.number? x.value y.value = some z.value ∨ z.num = 0 ∨ z.den < 2 ^ 10) :
    gateFraction z.num z.den = .ok (z.num, z.den) := by
  rw [← map_gate_eq_self_iff]
  -- The result is what the gate gives for the exact one.
  rw [op.apply_eq, CoefficientOperator.gated?] at made
  cases number : op.number? x.value y.value with
  | none =>
    rw [number] at made
    cases made
  | some q =>
    rw [number] at made rests
    change (gate q).map ofRat = .ok z at made
    cases gated : gate q with
    | error cause =>
      rw [gated] at made
      cases made
    | ok w =>
      rw [gated] at made
      cases made
      have kept : gate w = .ok w := by
        refine gateKeeps_of_gate gated (rests.imp (fun same => ?_) (.imp (fun zero => ?_) fun small => ?_))
        · rw [Option.some.inj same, value_ofRat]
        · exact Rat.num_eq_zero.mp zero
        · exact Int.ofNat_lt.mp small
      rw [value_ofRat, kept]
      rfl

end LowestTerms

/-- The gate is not idempotent, but it comes to rest. A second gate keeps what the first one kept or dropped
and what has come below the threshold, and makes the denominator smaller where it changes anything. So a
coefficient that arithmetic has made without rounding, as zero or below the threshold does not change in
products with one and in sums with zero, and another one does not change exactly if the gate keeps it. -/
theorem gate_comesToRest {num den : Int} (positive : 0 < den)
    (range : |(num : Rat) / den| < 2 ^ 1000) :
    (∃ z, gateFraction num den = .ok (lowestPair z) ∧ ComesToRest (num / den) z) ∧
    (∀ (op : CoefficientOperator) (x y z : LowestTerms), op.apply x y = .ok z →
      (op.number? x.value y.value = some z.value ∨ z.num = 0 ∨ z.den < 2 ^ 10) →
      z.mul (.ofRat 1) = .ok z ∧ z.add (.ofRat 0) = .ok z) ∧
    ∀ z : LowestTerms, (z.mul (.ofRat 1) = .ok z ↔ gateFraction z.num z.den = .ok (z.num, z.den)) ∧
      (z.add (.ofRat 0) = .ok z ↔ gateFraction z.num z.den = .ok (z.num, z.den)) := by
  refine ⟨?_, fun op x y z made rests => ?_, fun z => ⟨z.mul_one_eq_self_iff, z.add_zero_eq_self_iff⟩⟩
  · obtain ⟨z, gated⟩ := exists_gate range.le
    refine ⟨z, ?_, comesToRest range.le gated⟩
    rw [LowestTerms.gateFraction_eq positive, Rat.divInt_eq_div, gated]
    rfl
  · have kept := LowestTerms.gateFraction_of_apply made rests
    exact ⟨z.mul_one_eq_self_iff.mpr kept, z.add_zero_eq_self_iff.mpr kept⟩

/-- A fraction that is moved twice, and then is too far from the next parent. -/
theorem gate_comesToRest_twice :
    (0 < (1871 : Int) ∧ |((5469 : Int) : Rat) / (1871 : Int)| < 2 ^ 1000) ∧
      gateFraction 5469 1871 = .ok (5431, 1858) ∧ gateFraction 5431 1858 = .ok (5393, 1845) ∧
      (LowestTerms.ofRat (5393 / 1845)).mul (.ofRat 1) = .ok (.ofRat (5393 / 1845)) := by
  have range : |((5469 : Int) : Rat) / (1871 : Int)| < 2 ^ 1000 := by decide +kernel
  obtain ⟨⟨z, gated, rest⟩, -, neutral⟩ := gate_comesToRest (by decide) range
  have first : gateFraction 5469 1871 = .ok (lowestPair (5431 / 1858)) := by decide +kernel
  obtain rfl := lowestPair_injective (Except.ok.inj (gated.symm.trans first))
  -- The parent of the second fraction is within reach of it.
  obtain ⟨second, -⟩ := rest.close (5393 / 1845) (by decide +kernel) (by decide +kernel)
    (by decide +kernel) (by decide +kernel)
  have pair : gateFraction (5431 / 1858 : Rat).num (5431 / 1858 : Rat).den = gateFraction 5431 1858 := by
    decide +kernel
  rw [pair] at second
  refine ⟨⟨by decide, range⟩, by decide +kernel, second.trans (by decide +kernel),
    (neutral _).1.mpr (by decide +kernel)⟩

/-- What the gate gives need not be kept by it. -/
theorem not_gate_idempotent : ¬ ∀ num den : Int, 0 < den → |(num : Rat) / den| < 2 ^ 1000 →
    ∀ n d, gateFraction num den = .ok (n, d) → gateFraction n d = .ok (n, d) := by
  intro idempotent
  have range : |((5469 : Int) : Rat) / (1871 : Int)| < 2 ^ 1000 := by decide +kernel
  have first : gateFraction 5469 1871 = .ok (5431, 1858) := by decide +kernel
  have second : gateFraction 5431 1858 = .ok (5393, 1845) := by decide +kernel
  have again := idempotent 5469 1871 (by decide) range _ _ first
  exact absurd (Except.ok.inj (second.symm.trans again)) (by decide)

end Clifford
