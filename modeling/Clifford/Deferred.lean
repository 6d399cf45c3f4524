/-! Scalar functions that a symbolic multivector carries unevaluated until numbers are known. -/

namespace Clifford

/-- The function applied to a scalar multivector once its value is known. -/
inductive Deferred
  | identity
  | sin
  | cos
  | tan
  | sqrt
deriving DecidableEq, Repr

namespace Deferred

/-- The written name of a deferred function. -/
def name : Deferred → String
  | identity => "identity"
  | sin => "sin"
  | cos => "cos"
  | tan => "tan"
  | sqrt => "sqrt"

/-- Every deferred function. -/
def all : List Deferred := [identity, sin, cos, tan, sqrt]

/-- The deferred function of a written name. -/
def ofName? (text : String) : Option Deferred := all.find? (·.name = text)

end Deferred

end Clifford
