import Clifford.Deferred
import Clifford.Multivector.Monomial
import Clifford.Numeric.Precision

/-! The arithmetic that symbolic multivectors are evaluated in: numbers for the values of the
indeterminates, and numbers for coefficients, which are collected first. -/

namespace Clifford

/-- Coefficients of type `κ` that multiply values of type `α`. -/
structure Arithmetic (κ α : Type) where
  ofRat : Rat → Result κ
  mulCoefficient : κ → κ → κ
  /-- The power of an id that stands for a constant. -/
  constantPower? : Nat → Rat → Option (Result κ)
  embed : κ → α
  /-- The value of a coefficient without powers, which has to be in the range of the values. -/
  constant : κ → Result α
  zero : α
  add : α → α → α
  mul : α → α → α
  /-- The function that raises a value to a degree. -/
  power : Rat → Result (α → α)
  deferred : Deferred → α → α

namespace Arithmetic

/-- The circle constant in double precision. -/
def pi : Float := 3.141592653589793

/-- The base of natural logarithms in double precision. -/
def e : Float := 2.718281828459045

/-- The power of a constant in double precision, which has to be finite. -/
def floatPowerOf (base : Float) (degree : Rat) : Result Float := do
  let power := Float.pow base (← toDouble degree)
  if power.isInf then throw .quotientOverflow else return power

/-- The power of an id that stands for a constant in double precision. -/
def floatConstantPower? (id : Nat) (degree : Rat) : Option (Result Float) :=
  if id = piId then some (floatPowerOf pi degree)
  else if id = eId then some (floatPowerOf e degree)
  else none

section Floating

variable {α : Type} [Elementary α]

open Elementary

/-- Raises to a degree, where small degrees are products and roots. -/
def floatPower (degree : Rat) : Result (α → α) :=
  if degree = 1 then .ok id
  else if degree = 2 then .ok fun x => x * x
  else if degree = 3 then .ok fun x => x * x * x
  else if degree = -1 then .ok fun x => one / x
  else if degree = -2 then .ok fun x => one / (x * x)
  else if degree = 1 / 2 then .ok sqrt
  else if degree = -1 / 2 then .ok fun x => one / sqrt x
  else do
    let exponent : α := ofDouble (← toDouble degree)
    return fun x => pow x exponent

/-- A deferred function in floating point. -/
def floatDeferred : Deferred → α → α
  | .identity => id
  | .sin => sin
  | .cos => cos
  | .tan => tan
  | .sqrt => sqrt

/-- The number nearest to a coefficient, which has to stay finite. -/
def floatConstant (coefficient : Float) : Result α :=
  let value : α := ofDouble coefficient
  if coefficient.isFinite && !(widen value).isFinite then .error .formatOverflow else .ok value

/-- Evaluation in a floating point format, with coefficients in double precision. -/
def floating : Arithmetic Float α where
  ofRat := toDouble
  mulCoefficient := (· * ·)
  constantPower? := floatConstantPower?
  embed := ofDouble
  constant := floatConstant
  zero := 0
  add := (· + ·)
  mul := (· * ·)
  power := floatPower
  deferred := floatDeferred

end Floating

end Arithmetic

end Clifford
