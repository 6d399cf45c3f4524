import Clifford.Proofs.Rational.Closeness
import Clifford.Proofs.Rational.LowestTerms

/-! The error of the gate is bounded: it gives the number itself, zero for a tiny number, or a number of
the same sign that is close to it. -/

namespace Clifford

/-- A number that may stand for another one behind the gate. -/
def WithinGate (x z : Rat) : Prop :=
  z = x ∨ (z = 0 ∧ |x| < gateMargin) ∨
    (SignType.sign z = SignType.sign x ∧ |z - x| ≤ gateMargin * |x|)

/-- A number that the gate keeps. -/
def GateKeeps (x : Rat) : Prop := gate x = .ok x

/-- A number that the gate moves to one of its parents. -/
def GateMoves (x : Rat) : Prop := ∃ c, gate x = .ok c ∧ c ≠ x ∧ c ≠ 0

section Gate

variable {x z c : Rat}

/-- A number close to another one has its sign. -/
theorem sign_eq_of_close (close : |z - x| ≤ gateMargin * |x|) :
    SignType.sign z = SignType.sign x := by
  have margin : gateMargin < 1 := by decide +kernel
  obtain ⟨low, high⟩ := abs_le.mp close
  -- The distance is smaller than that from zero.
  rcases lt_trichotomy x 0 with negative | rfl | positive
  · rw [abs_of_neg negative] at high
    rw [sign_neg negative, sign_neg (by nlinarith)]
  · rw [abs_zero, mul_zero, sub_zero] at low high
    rw [le_antisymm high (by linarith)]
  · rw [abs_of_pos positive] at low
    rw [sign_pos positive, sign_pos (by nlinarith)]

/-- Every step of the gate stays within its error. -/
theorem GateStep.withinGate (step : GateStep x z) : WithinGate x z := by
  -- Each step of the gate is one of the three cases.
  cases step with
  | keeps => exact .inl rfl
  | drops _ tiny => exact .inr (.inl ⟨rfl, tiny⟩)
  | moves _ _ close => exact .inr (.inr ⟨sign_eq_of_close close, close⟩)

/-- What the gate does not drop keeps its sign and stays close to where it was. -/
theorem WithinGate.close (within : WithinGate x z) (nonzero : z ≠ 0) :
    SignType.sign z = SignType.sign x ∧ |z - x| ≤ gateMargin * |x| := by
  have margin : 0 ≤ gateMargin := by decide +kernel
  -- A kept number has no error at all, and a dropped one is excluded.
  rcases within with rfl | ⟨zero, -⟩ | close
  · exact ⟨rfl, by simpa using by positivity⟩
  · exact absurd zero nonzero
  · exact close

/-- Inside the range of doubles the gate takes one of its steps. -/
theorem exists_gateStep (range : |x| ≤ 2 ^ 1000) : ∃ z, gate x = .ok z ∧ GateStep x z := by
  obtain ⟨z, gated⟩ := exists_gate range
  exact ⟨z, gated, gateStep_of_gate gated⟩

/-- Numbers with a denominator below the threshold are kept. -/
theorem gateKeeps_of_small (small : x.den < gateThreshold) : GateKeeps x := by
  rw [GateKeeps, gate, if_pos small]

/-- A number that is moved has a large denominator, and goes to the parent that stands in for it. -/
theorem gateCandidate_of_gate (gated : gate x = .ok c) (other : c ≠ x) (nonzero : c ≠ 0) :
    gateThreshold ≤ x.den ∧ gateCandidate x.num x.den = .ok c := by
  -- Keeping and dropping contradict what is known of the result.
  cases gateStep_of_gate gated with
  | keeps => exact absurd rfl other
  | drops => exact absurd rfl nonzero
  | moves large candidate => exact ⟨large, candidate⟩

end Gate

/-- The gate gives a reduced pair with a denominator that is not larger than the reduced one of the given
number. It stands for that number itself, for zero where the number is tiny, or for a number of the same
sign within the margin, and for the number itself if the reduced denominator is below the threshold. -/
theorem gateFraction_within {num den : Int} (positive : 0 < den)
    (range : |(num : Rat) / den| < 2 ^ 1000) :
    ∃ n d : Int, gateFraction num den = .ok (n, d) ∧ 0 < d ∧ Int.gcd n d = 1 ∧
      d ≤ ((num : Rat) / den).den ∧ WithinGate (num / den) (n / d) ∧
      (((num : Rat) / den).den < 2 ^ 10 → (n : Rat) / d = num / den) := by
  -- The pair is that of the number which the gate gives, however the fraction was written.
  obtain ⟨z, gated, step⟩ := exists_gateStep range.le
  refine ⟨z.num, z.den, ?_, ?_, z.reduced, ?_, ?_, fun small => ?_⟩
  · rw [LowestTerms.gateFraction_eq positive, Rat.divInt_eq_div, gated]
    rfl
  · exact_mod_cast z.den_pos
  · exact_mod_cast step.den_le
  · rw [Int.cast_natCast, Rat.num_div_den]
    exact step.withinGate
  · -- Below the threshold the gate does not look at the number.
    have kept : gate (num / den) = .ok ((num : Rat) / den) := gateKeeps_of_small small
    rw [Int.cast_natCast, Rat.num_div_den, Except.ok.inj (gated.symm.trans kept)]

/-- A fraction that is next to a half, which the gate moves there. -/
theorem gateFraction_within_half :
    (0 < (20000001 : Int) ∧ |((10000001 : Int) : Rat) / (20000001 : Int)| < 2 ^ 1000) ∧
      gateFraction 10000001 20000001 = .ok (1, 2) ∧
      WithinGate ((10000001 : Int) / (20000001 : Int)) ((1 : Int) / (2 : Int)) := by
  have range : |((10000001 : Int) : Rat) / (20000001 : Int)| < 2 ^ 1000 := by decide +kernel
  have half : gateFraction 10000001 20000001 = .ok (1, 2) := by decide +kernel
  obtain ⟨n, d, gated, -, -, -, within, -⟩ := gateFraction_within (by decide) range
  cases gated.symm.trans half
  exact ⟨⟨by decide, range⟩, half, within⟩

end Clifford
