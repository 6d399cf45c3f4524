import Clifford.Code.Program
import Clifford.Plan.Operation

/-! Plans: the order in which the indeterminates of a compiled formula receive their values. -/

namespace Clifford

/-- The functions that are computed on dense multivectors. -/
inductive RotorFunction
  | exp
  | log
deriving DecidableEq, Repr

namespace RotorFunction

/-- The operation of a function. -/
def opcode : RotorFunction → Opcode
  | exp => .exp
  | log => .log

/-- The function of an operator, if it is one. -/
def ofUnaryOp? : UnaryOp → Option RotorFunction
  | .exp => some exp
  | .log => some log
  | _ => none

/-- Refuses arguments that the function is not defined on. -/
def requireArgument (function : RotorFunction) (arg : Multivector) : Result Unit :=
  if !arg.isPlain then .error (.domain (.deferredArgument function.opcode))
  else match function with
    | exp =>
      if arg.elements.any fun e => Blade.grade e ≠ 2 then
        .error (.domain (.expElements arg.elements))
      else .ok ()
    | log =>
      if arg.isZero then .error (.domain .logZero)
      else if arg.elements.any fun e => Blade.grade e % 2 = 1 then
        .error (.domain (.logElements arg.elements))
      else .ok ()

/-- The symbolic result of a function, with fresh indeterminates from an id on. -/
def block (function : RotorFunction) (A : Algebra) (id : Nat) : Result Multivector :=
  match function with
  | exp => Multivector.even A.dim id
  | log => Multivector.bivector A.dim id

end RotorFunction

/-- Gives values to consecutive indeterminates: those of the terms of a multivector, or those of
the coefficients of a function on the given blades. -/
inductive Step
  | value (base : Nat) (a : Multivector)
  | block (base : Nat) (function : RotorFunction) (arg : Multivector) (elements : List Nat)
deriving DecidableEq

namespace Step

/-- The first id that a step gives a value to. -/
def base : Step → Nat
  | value base _ => base
  | block base _ _ _ => base

/-- The number of ids that a step gives values to. -/
def width : Step → Nat
  | value _ a => a.terms.length
  | block _ _ _ elements => elements.length

end Step

/-- Steps in order, and the outputs over the ids of inputs and steps. -/
structure Plan where
  steps : List Step
  outputs : List Multivector
  inputSize : Nat
  idCount : Nat
deriving DecidableEq

/-- The written form of a plan. -/
def Plan.display (p : Plan) : String :=
  "Plan(steps=" ++ toString p.steps.length ++ ", outputs=" ++ toString p.outputs.length
    ++ ", ids=" ++ toString p.idCount ++ ")"

end Clifford
