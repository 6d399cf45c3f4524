import Mathlib
import Clifford.Rational.LowestTerms
import Clifford.Proofs.Result

/-! Arithmetic on numerators and denominators is the gated arithmetic of rational numbers, and exact
where the result has a small denominator. -/

namespace Clifford

namespace LowestTerms

variable {x y : LowestTerms} {num den : Int}

/-- The numerator of the number that two integers stand for. -/
@[simp] theorem num_value (x : LowestTerms) : x.value.num = x.num := by
  rw [value, Rat.divInt_eq_div]
  exact Rat.num_div_eq_of_coprime x.positive x.reduced

/-- The denominator of the number that two integers stand for. -/
@[simp] theorem den_value (x : LowestTerms) : (x.value.den : Int) = x.den := by
  rw [value, Rat.divInt_eq_div]
  exact Rat.den_div_eq_of_coprime x.positive x.reduced

/-- A number in lowest terms stands for itself. -/
@[simp] theorem value_ofRat (q : Rat) : (ofRat q).value = q := Rat.num_divInt_den q

/-- What stands for a number are its lowest terms. -/
@[simp] theorem ofRat_value (x : LowestTerms) : ofRat x.value = x :=
  LowestTerms.ext (num_value x) (den_value x)

/-- Lowest terms are unique. -/
theorem value_injective : Function.Injective value :=
  Function.LeftInverse.injective ofRat_value

/-- Dividing a common factor out does not change the number. -/
theorem reduce_eq (num : Int) (positive : 0 < den) :
    reduce num den positive = ofRat (Rat.divInt num den) := by
  -- Both sides are compared as numbers.
  refine value_injective ?_
  rw [value_ofRat, reduce]
  split
  · rename_i common
    have nonzero : (Int.gcd num den : Int) ≠ 0 := by exact_mod_cast (Nat.zero_lt_of_lt common).ne'
    show Rat.divInt (num / Int.gcd num den) (den / Int.gcd num den) = _
    rw [← Rat.divInt_mul_right nonzero, Int.ediv_mul_cancel (Int.gcd_dvd_left num den),
      Int.ediv_mul_cancel (Int.gcd_dvd_right num den)]
  · rfl

/-- Two integers give the lowest terms of their quotient. -/
theorem ofInts_eq (nonzero : den ≠ 0) : ofInts num den = .ok (ofRat (Rat.divInt num den)) := by
  rw [ofInts, dif_neg nonzero]
  -- A negative denominator gives its sign to the numerator.
  split
  · rw [reduce_eq, Rat.neg_divInt_neg]
  · rw [reduce_eq]

/-- The opposite number. -/
@[simp] theorem value_neg (x : LowestTerms) : x.neg.value = -x.value := by
  rw [neg, reduce_eq, value_ofRat, value, Rat.neg_divInt]

/-- Reduced denominators are the smallest ones. -/
theorem den_divInt_le (num : Int) (positive : 0 < den) : ((Rat.divInt num den).den : Int) ≤ den :=
  Int.le_of_dvd positive (Rat.den_dvd num den)

/-- The gate on two integers is the gate on their quotient. -/
theorem gateFraction_eq (positive : 0 < den) :
    gateFraction num den = (gate (Rat.divInt num den)).map fun q => (q.num, (q.den : Int)) := by
  -- Both sides look at the quotient in lowest terms, which is the reduced pair.
  have terms := reduce_eq num positive
  rw [reduce] at terms
  have pair : (if 1 < (Int.gcd num den : Int) then
      (num / (Int.gcd num den : Int), den / (Int.gcd num den : Int)) else (num, den)) =
        ((Rat.divInt num den).num, ((Rat.divInt num den).den : Int)) := by
    split at terms
    · rename_i common
      rw [if_pos (by exact_mod_cast common)]
      exact Prod.ext (congrArg LowestTerms.num terms) (congrArg LowestTerms.den terms)
    · rename_i common
      rw [if_neg (by exact_mod_cast common)]
      exact Prod.ext (congrArg LowestTerms.num terms) (congrArg LowestTerms.den terms)
  rw [gateFraction]
  simp only [pair]
  -- Below the threshold the gate gives the pair itself, above it that of the candidate.
  by_cases small : (Rat.divInt num den).den < gateThreshold
  · rw [if_pos (by exact_mod_cast small), gate, if_pos small]
    rfl
  · rw [if_neg (by exact_mod_cast small), Rat.num_divInt_den]
    cases gate (Rat.divInt num den) <;> rfl

/-- A gated quotient is the quotient that the gate gives, also where the gate is left out. -/
theorem gatedPositive_eq (positive : 0 < den) :
    gatedPositive num den = (gate (Rat.divInt num den)).map ofRat := by
  rw [gatedPositive]
  split
  · -- The reduced pair that the gate gives is reduced once more, which does nothing.
    rw [gateFraction_eq positive]
    cases gate (Rat.divInt num den) with
    | error cause => rfl
    | ok q =>
      show ofInts q.num q.den = _
      rw [ofInts_eq (by exact_mod_cast q.den_ne_zero), Rat.num_divInt_den]
      rfl
  · rename_i below
    -- A threshold that is not reached before dividing by a common factor is not reached after it.
    have small : (Rat.divInt num den).den < gateThreshold := by
      have least := den_divInt_le num positive
      omega
    rw [gate, if_pos small]
    exact ofInts_eq positive.ne'

/-- The sign of the denominator does not matter. -/
theorem gated_eq (nonzero : den ≠ 0) :
    gated num den = (gate (Rat.divInt num den)).map ofRat := by
  rw [gated]
  split
  · -- Both signs are turned around.
    rename_i negative
    rw [gatedPositive_eq (Int.neg_pos_of_neg negative), Rat.neg_divInt_neg]
  · exact gatedPositive_eq (by omega)

/-- The denominator of a number is not zero. -/
theorem den_ne_zero (x : LowestTerms) : x.den ≠ 0 := x.positive.ne'

/-- Only zero has a numerator of zero. -/
theorem num_eq_zero : x.num = 0 ↔ x.value = 0 := by
  rw [← num_value, Rat.num_eq_zero]

/-- The sum is the gated sum of numbers, over a common denominator or not. -/
theorem add_eq (x y : LowestTerms) : x.add y = (gate (x.value + y.value)).map ofRat := by
  rw [add]
  split
  -- Equal denominators need no common one.
  · rename_i same
    rw [gated_eq x.den_ne_zero, value, value, ← same, Rat.divInt_eq_div, Rat.divInt_eq_div,
      Rat.divInt_eq_div, Int.cast_add, add_div]
  · -- Otherwise the denominators are multiplied.
    rw [gated_eq (mul_ne_zero x.den_ne_zero y.den_ne_zero), value, value,
      Rat.divInt_add_divInt _ _ x.den_ne_zero y.den_ne_zero]

/-- The difference is the gated difference of numbers. -/
theorem sub_eq (x y : LowestTerms) : x.sub y = (gate (x.value - y.value)).map ofRat := by
  rw [sub, add_eq, value_neg, sub_eq_add_neg]

/-- The product is the gated product of numbers. -/
theorem mul_eq (x y : LowestTerms) : x.mul y = (gate (x.value * y.value)).map ofRat := by
  rw [mul, gated_eq (mul_ne_zero x.den_ne_zero y.den_ne_zero), value, value,
    Rat.divInt_mul_divInt]

/-- The quotient is the gated quotient of numbers, unless the divisor is zero. -/
theorem div_eq (x y : LowestTerms) :
    x.div y = if y.value = 0 then .error .zeroDivisor
      else (gate (x.value / y.value)).map ofRat := by
  rw [div]
  by_cases zero : y.num = 0
  · rw [if_pos zero, if_pos (num_eq_zero.mp zero)]
  · rw [if_neg zero, if_neg (mt num_eq_zero.mpr zero),
      gated_eq (mul_ne_zero x.den_ne_zero zero), value, value, Rat.divInt_div_divInt]

/-- Equality is that of the numbers. -/
theorem eq_iff : x.eq y = true ↔ x.value = y.value := by
  rw [eq, Bool.and_eq_true, decide_eq_true_iff, decide_eq_true_iff, value_injective.eq_iff,
    LowestTerms.ext_iff]

/-- A literal with an exact value is an operand. -/
theorem ofLiteral_eq {l : Literal} {y : Rat} (number : l.exactValue? = some y) :
    ofLiteral l = .ok (ofRat y) := by
  rw [ofLiteral, Literal.operand, number]
  rfl

/-- A literal with an exact value is equal to that number alone. -/
theorem eqLiteral_iff {l : Literal} {q : Rat} (number : l.exactValue? = some q) :
    x.eqLiteral l = true ↔ x.value = q := by
  rw [eqLiteral, number, Option.any_some, eq_iff, value_ofRat]

/-- The order is that of the numbers. -/
theorem lt_iff : x.lt y = true ↔ x.value < y.value := by
  rw [lt, decide_eq_true_iff, Rat.lt_iff, num_value, num_value, den_value, den_value]

/-- The order with equality is that of the numbers. -/
theorem le_iff : x.le y = true ↔ x.value ≤ y.value := by
  rw [le, Bool.or_eq_true, lt_iff, eq_iff, le_iff_lt_or_eq]

/-- The reverse order is that of the numbers. -/
theorem gt_iff : x.gt y = true ↔ y.value < x.value := by
  -- The code excludes the smaller and the equal, which leaves the larger.
  rw [gt, Bool.and_eq_true, Bool.not_eq_true', Bool.not_eq_true', ← Bool.not_eq_true,
    ← Bool.not_eq_true, lt_iff, eq_iff]
  exact ⟨fun ⟨least, other⟩ => lt_of_le_of_ne (not_lt.mp least) (Ne.symm other),
    fun less => ⟨less.not_gt, less.ne'⟩⟩

/-- The reverse order with equality is that of the numbers. -/
theorem ge_iff : x.ge y = true ↔ y.value ≤ x.value := by
  rw [ge, Bool.not_eq_true', ← Bool.not_eq_true, lt_iff, not_lt]

end LowestTerms

namespace CoefficientOperator

open LowestTerms

/-- The number that an operator gives, which is none for a division by zero. -/
def number? (op : CoefficientOperator) (x y : Rat) : Option Rat :=
  match op with
  | add => some (x + y)
  | sub => some (x - y)
  | mul => some (x * y)
  | div => if y = 0 then none else some (x / y)

/-- The number that an operator gives, after the gate. -/
def gated? (op : CoefficientOperator) (x y : Rat) : Result LowestTerms :=
  match op.number? x y with
  | some q => (gate q).map ofRat
  | none => .error .zeroDivisor

/-- Operators on numerators and denominators give the gated numbers. -/
theorem apply_eq (op : CoefficientOperator) (x y : LowestTerms) :
    op.apply x y = op.gated? x.value y.value := by
  cases op with
  | add => exact add_eq x y
  | sub => exact sub_eq x y
  | mul => exact mul_eq x y
  | div =>
    rw [apply, div_eq, gated?, number?]
    split <;> rfl

end CoefficientOperator

namespace LowestTerms

/-- A result that is the gated number of an operator: it is in lowest terms, it is that number itself
where its denominator is small, and it is missing where there is no number. -/
structure GivesGated (number? : Option Rat) (result : Result LowestTerms) : Prop where
  stored : ∀ z, result = .ok z → 0 < z.den ∧ Int.gcd z.num z.den = 1
  exact : ∀ q, number? = some q → q.den < gateThreshold →
    ∃ z, result = .ok z ∧ z.num = q.num ∧ z.den = q.den
  gated : ∀ q, number? = some q → result = (gate q).map ofRat
  undefined : number? = none → result = .error .zeroDivisor

/-- The gated number of an operator is computed as such. -/
theorem givesGated (op : CoefficientOperator) (x y : Rat) :
    GivesGated (op.number? x y) (op.gated? x y) where
  stored z _ := ⟨z.positive, z.reduced⟩
  exact q number small := by
    refine ⟨ofRat q, ?_, rfl, rfl⟩
    rw [CoefficientOperator.gated?, number]
    show (gate q).map ofRat = _
    rw [gate, if_pos small]
    rfl
  gated q number := by rw [CoefficientOperator.gated?, number]
  undefined none := by rw [CoefficientOperator.gated?, none]

/-- An operator with a literal to the right of a coefficient gives the gated number. -/
theorem withRight_eq (x : LowestTerms) (op : CoefficientOperator) {l : Literal} {y : Rat}
    (number : l.exactValue? = some y) : x.withRight op l = op.gated? x.value y := by
  rw [withRight, ofLiteral_eq number, Result.ok_bind, op.apply_eq, value_ofRat]

/-- An operator with a literal to the left of a coefficient gives the gated number. -/
theorem withLeft_eq (x : LowestTerms) (op : CoefficientOperator) {l : Literal} {y : Rat}
    (number : l.exactValue? = some y) : x.withLeft op l = op.gated? y x.value := by
  have swapped : x.withLeft op l = op.apply (ofRat y) x := by
    rw [withLeft, ofLiteral_eq number, Result.ok_bind]
    -- Two of the operators are computed in the other order, where the order does not matter.
    cases op with
    | add =>
      show x.add (ofRat y) = (ofRat y).add x
      rw [add_eq, add_eq, add_comm]
    | sub => rfl
    | mul =>
      show x.mul (ofRat y) = (ofRat y).mul x
      rw [mul_eq, mul_eq, mul_comm]
    | div => rfl
  rw [swapped, op.apply_eq, value_ofRat]

/-- Arithmetic is exact below the threshold of the gate: with a literal on either side, every operator
gives the number that it gives for rational numbers if that has a small denominator, however large
the operands are. Every result is in lowest terms, only a division by zero has none for another
reason than the gate, and comparisons are those of rational numbers. -/
theorem exact_below_threshold (x : LowestTerms) {l : Literal} {y : Rat}
    (number : l.exactValue? = some y) :
    (∀ op : CoefficientOperator, GivesGated (op.number? x.value y) (x.withRight op l) ∧
      GivesGated (op.number? y x.value) (x.withLeft op l)) ∧
    (x.eqLiteral l = true ↔ x.value = y) ∧
    ∀ z : LowestTerms, (x.eq z = true ↔ x.value = z.value) ∧ (x.lt z = true ↔ x.value < z.value) ∧
      (x.le z = true ↔ x.value ≤ z.value) ∧ (x.gt z = true ↔ z.value < x.value) ∧
      (x.ge z = true ↔ z.value ≤ x.value) := by
  -- Each side of the literal is the operator on the exact numbers.
  refine ⟨fun op => ⟨?_, ?_⟩, eqLiteral_iff number, fun z => ⟨eq_iff, lt_iff, le_iff, gt_iff, ge_iff⟩⟩
  · rw [x.withRight_eq op number]
    exact givesGated op x.value y
  · rw [x.withLeft_eq op number]
    exact givesGated op y x.value

/-- A large denominator loses a factor in a product, which keeps one just below the threshold, and the
quotient of a number by zero is refused. -/
theorem exact_below_threshold_product :
    let x := ofRat ((2 ^ 70 + 1) / (1031 * 1021))
    (∃ z, x.withRight .mul (.integer 1031) = .ok z ∧ z.num = 2 ^ 70 + 1 ∧ z.den = 1021) ∧
      x.withRight .div (.ratio 0) = .error .zeroDivisor := by
  intro x
  have product : CoefficientOperator.mul.number? x.value (1031 : Int) =
      some ((2 ^ 70 + 1) / 1021) := by decide +kernel
  have quotient : CoefficientOperator.div.number? x.value 0 = none := by decide +kernel
  obtain ⟨z, computed, num, den⟩ := ((exact_below_threshold x
    (l := .integer 1031) rfl).1 .mul).1.exact _ product (by decide +kernel)
  refine ⟨⟨z, computed, num.trans (by decide +kernel), den.trans (by decide +kernel)⟩, ?_⟩
  exact ((exact_below_threshold x (l := .ratio 0) rfl).1 .div).1.undefined quotient

end LowestTerms

end Clifford
