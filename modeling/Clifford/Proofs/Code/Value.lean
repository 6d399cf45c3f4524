import Clifford.Proofs.Code.Emit
import Clifford.Proofs.Dense.Linear
import Clifford.Proofs.Rational.Exact

/-! The dense coefficients that lowered code computes, as long as every multiplier in it is whole. -/

namespace Clifford

/-- Whether a node takes its operands: a quotient asks for a divisor without a multiplier but a
sign. -/
def Head.admits (head : Head) : List Code → Bool
  | [_, divisor] => head ≠ .binary .divide || divisor.scale = 1 || divisor.scale = -1
  | _ => true

variable (A : Algebra) (F : Functions A.dim) (leaves : Nat → Option Dense)

/-- The coefficients that a node gives from those of its operands. -/
def Head.dense (head : Head) (operands : List Dense) : Option Dense :=
  match head, operands with
  | input index, [] => leaves index
  | constant kind element, [] => kind.dense element A.dim
  | unary op, [x] => op.dense A F x
  | binary op, [x, y] => op.dense A x y
  | variadic op count, xs => if xs.length = count then op.dense A xs else none
  | component element, [x] => some (x.component element)
  | _, _ => none

namespace Code

mutual

/-- The coefficients of code, if its multipliers are whole and those of divisors are signs. -/
def value : Code → Option Dense
  | node head scale operands => do
    let xs ← values operands
    if scale.den = 1 ∧ head.admits operands then return scale • (← head.dense A F leaves xs)
    else none

/-- The coefficients of several trees of code. -/
def values : List Code → Option (List Dense)
  | [] => some []
  | code :: rest => do return (← value code) :: (← values rest)

end

variable {A F leaves}

/-- The coefficients of a node are a whole multiple of those that it gives from its operands. -/
theorem value_node {head : Head} {scale : Rat} {operands : List Code} {x : Dense} :
    (node head scale operands).value A F leaves = some x ↔
      Dyadic 0 scale ∧ head.admits operands = true ∧ ∃ xs y, values A F leaves operands = some xs ∧
        head.dense A F leaves xs = some y ∧ scale • y = x := by
  -- The operands come first, then the check of the multiplier, and the operation last.
  rw [value, Option.bind_eq_bind, Option.bind_eq_some_iff, Dyadic.zero_iff]
  constructor
  · rintro ⟨xs, given, rest⟩
    split at rest
    · rename_i admitted
      obtain ⟨y, made, done⟩ := Option.bind_eq_some_iff.mp rest
      exact ⟨admitted.1, admitted.2, xs, y, given, made, Option.some.inj done⟩
    · cases rest
  · rintro ⟨whole, admitted, xs, y, given, made, rfl⟩
    refine ⟨xs, given, ?_⟩
    rw [if_pos ⟨whole, admitted⟩, made]
    rfl

/-- The coefficients of code are a whole multiple of those of its stem. -/
theorem value_stem {code : Code} {x : Dense} : code.value A F leaves = some x ↔
    Dyadic 0 code.scale ∧ ∃ y, code.stem.value A F leaves = some y ∧ code.scale • y = x := by
  -- Code and its stem only differ in the multiplier, which is applied last.
  obtain ⟨head, scale, operands⟩ := code
  show _ ↔ Dyadic 0 scale ∧ ∃ y, (node head 1 operands).value A F leaves = some y ∧ scale • y = x
  constructor
  · intro value
    obtain ⟨whole, admitted, xs, y, given, made, done⟩ := value_node.mp value
    exact ⟨whole, y, value_node.mpr ⟨.one 0, admitted, xs, y, given, made, one_smul _ _⟩, done⟩
  · rintro ⟨whole, y, stem, rfl⟩
    obtain ⟨-, admitted, xs, z, given, made, rfl⟩ := value_node.mp stem
    exact value_node.mpr ⟨whole, admitted, xs, z, given, made, by rw [one_smul]⟩

/-- Several trees have the coefficients that each of them has. -/
theorem values_eq_some {codes : List Code} {xs : List Dense} :
    values A F leaves codes = some xs ↔
      List.Forall₂ (fun code x => code.value A F leaves = some x) codes xs := by
  -- The trees are evaluated one by one.
  induction codes generalizing xs with
  | nil => cases xs <;> simp [values]
  | cons code rest ih =>
    rw [values, Option.bind_eq_bind, Option.bind_eq_some_iff]
    constructor
    · rintro ⟨x, first, later⟩
      obtain ⟨ys, others, done⟩ := Option.bind_eq_some_iff.mp later
      cases done
      exact .cons first (ih.mp others)
    · rintro (_ | ⟨first, others⟩)
      exact ⟨_, first, Option.bind_eq_some_iff.mpr ⟨_, ih.mpr others, rfl⟩⟩

/-- Another multiplier multiplies the coefficients of the stem. -/
theorem value_withScale {code : Code} {y : Dense} (stem : code.stem.value A F leaves = some y)
    {q : Rat} (whole : Dyadic 0 q) : (code.withScale q).value A F leaves = some (q • y) :=
  value_stem.mpr ⟨whole, y, stem, rfl⟩

/-- The code of zero has no coefficient but zero. -/
theorem value_of_isZero {code : Code} (zero : code.isZero = true) {x : Dense}
    (value : code.value A F leaves = some x) : x = 0 := by
  -- Only a constant is the code of zero.
  obtain ⟨head, scale, operands⟩ := code
  obtain ⟨-, -, xs, y, -, made, rfl⟩ := value_node.mp value
  rw [isZero] at zero
  split at zero
  · rename_i element shape
    obtain rfl : head = .constant .zero element := shape
    -- Without operands the constant is zero, and with operands it is nothing.
    cases xs with
    | nil =>
      obtain rfl : 0 = y := Option.some.inj made
      exact smul_zero scale
    | cons _ _ => cases made
  · cases zero

/-- The code of zero. -/
theorem value_zero : zero.value A F leaves = some 0 :=
  value_node.mpr ⟨.one 0, rfl, [], 0, rfl, rfl, one_smul _ _⟩

/-- Code multiplied by a whole number computes the multiple. -/
theorem value_rescale {code scaled : Code} {x : Dense} (value : code.value A F leaves = some x)
    {q : Rat} (whole : Dyadic 0 q) (made : code.rescale q = .ok scaled) :
    scaled.value A F leaves = some (q • x) := by
  rw [rescale] at made
  split at made
  · rename_i same
    cases made
    -- Code stays as it is for a multiplier of one, and as zero for all of them.
    rcases Bool.or_eq_true_iff.mp same with one | zero
    · rw [of_decide_eq_true one, one_smul, value]
    · rw [value, value_of_isZero zero value, smul_zero]
  · split at made
    · rename_i none
      cases made
      rw [none, zero_smul, value_zero]
    · obtain ⟨whole', y, stem, rfl⟩ := value_stem.mp value
      rw [gatedMul_eq_ok whole' whole (by decide), Result.ok_bind] at made
      cases made
      rw [value_withScale stem (whole'.mul whole), mul_comm, mul_smul]

end Code

end Clifford
