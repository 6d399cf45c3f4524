import Mathlib
import Clifford.Formula.Expr
import Clifford.Plan.Basic

/-! Dense coefficient vectors: the operators of formulas read off one coefficient for each blade. -/

namespace Clifford

/-- The coefficients of a multivector, one for each blade. -/
abbrev Dense := Nat → Rat

namespace Dense

/-- A number on one blade. -/
def onBlade (blade : Nat) (q : Rat) : Dense := fun b => if b = blade then q else 0

/-- No blade of a space but the scalar one has a coefficient. -/
def IsScalar (dim : Nat) (x : Dense) : Prop := ∀ b < dim, b ≠ 0 → x b = 0

instance (dim : Nat) (x : Dense) : Decidable (x.IsScalar dim) := Nat.decidableBallLT _ _

/-- The product of two blades, extended to all coefficients of a space. -/
def product (kind : BladeProduct) (m : Metric) (x y : Dense) : Dense := fun target =>
  ∑ i ∈ Finset.range m.dim, ∑ j ∈ Finset.range m.dim,
    if (kind.compute m i j).1 = target then (kind.compute m i j).2 * (x i * y j) else 0

/-- The reversal of the factors of every blade. -/
def reverse (x : Dense) : Dense := fun b => Blade.reversionSign b * x b

/-- The signed complement of every blade of a space. -/
def dual (n dim : Nat) (x : Dense) : Dense := fun target =>
  ∑ i ∈ Finset.range dim,
    if (Blade.complement i n).1 = target then (Blade.complement i n).2 * x i else 0

/-- The part on one blade. -/
def component (blade : Nat) (x : Dense) : Dense := onBlade blade (x blade)

end Dense

/-- Whether the result of a function on dense multivectors can have a coefficient on a blade. -/
def RotorFunction.reaches (function : RotorFunction) (blade : Nat) : Bool :=
  match function with
  | exp => Blade.grade blade % 2 = 0
  | log => Blade.grade blade = 2

/-- The functions without a polynomial form, on numbers and on coefficients: arbitrary but for their
values at zero, for the even result of an exponential and for the bivector result of a logarithm. -/
structure Functions (dim : Nat) where
  number : Deferred → Rat → Option Rat
  rotor : RotorFunction → Dense → Option Dense
  number_zero : ∀ op, op ≠ .identity → number op 0 = some (if op = .cos then 1 else 0)
  exp_zero : rotor .exp 0 = some (Dense.onBlade 0 1)
  rotor_reaches : ∀ function x y, (function = .exp → ∀ b, x b ≠ 0 → Blade.grade b = 2) →
    rotor function x = some y → ∀ b, y b ≠ 0 → b < dim ∧ function.reaches b

/-- The coefficients of a constant, of which those that no rational number equals have none. -/
def ConstantKind.dense (kind : ConstantKind) (element dim : Nat) : Option Dense :=
  match kind with
  | .zero => some 0
  | .basis => if element < dim then some (.onBlade element 1) else none
  | .pi => none
  | .e => none

section Operators

variable (A : Algebra) (F : Functions A.dim)

/-- A function of numbers, which is defined on scalar coefficients. -/
def Functions.scalar (op : Deferred) (x : Dense) : Option Dense := do
  if x.IsScalar A.dim then return .onBlade 0 (← F.number op (x 0)) else none

/-- The coefficients that an operator of one operand gives. -/
def UnaryOp.dense (op : UnaryOp) (x : Dense) : Option Dense :=
  match op with
  | .reverse => some x.reverse
  | .dual => some (x.dual A.n A.dim)
  | .sqrt => F.scalar A .sqrt x
  | .sin => F.scalar A .sin x
  | .cos => F.scalar A .cos x
  | .tan => F.scalar A .tan x
  | .exp => F.rotor .exp x
  | .log => F.rotor .log x

/-- The coefficients that an operator of two operands gives, where only a number other than zero
divides. -/
def BinaryOp.dense (op : BinaryOp) (x y : Dense) : Option Dense :=
  match op with
  | .geometric => some (.product .geometric A.metric x y)
  | .contract => some (.product .contract A.metric x y)
  | .inner => some (.product .symmetricInner A.metric x y)
  | .divide => if y.IsScalar A.dim ∧ y 0 ≠ 0 then some ((y 0)⁻¹ • x) else none

/-- The coefficients that two operands of an operator of any number of them give. -/
def VariadicOp.combineDense (op : VariadicOp) (x y : Dense) : Dense :=
  match op with
  | .sum => x + y
  | .wedge => .product .exterior A.metric x y

/-- The coefficients that one or more operands give, taken from the left. -/
def VariadicOp.dense (op : VariadicOp) : List Dense → Option Dense
  | [] => none
  | first :: rest => some (rest.foldl (op.combineDense A) first)

namespace Expr

variable (leaves : Nat → Option Dense)

mutual

/-- The coefficients of a formula, evaluated operator by operator over those of its leaves. -/
def value : Expr → Option Dense
  | leaf index => leaves index
  | constant kind element q => do return q • (← kind.dense element A.dim)
  | scaled q arg => do return q • (← value arg)
  | unary op arg => do op.dense A F (← value arg)
  | binary op left right => do op.dense A (← value left) (← value right)
  | variadic op args => do op.dense A (← values args)
  | component arg element => do return (← value arg).component element
  | foreign _ => none

/-- The coefficients of several formulas. -/
def values : List Expr → Option (List Dense)
  | [] => some []
  | e :: rest => do return (← value e) :: (← values rest)

end

end Expr

end Operators

end Clifford
