import Clifford.Formula.Expr
import Clifford.Plan.Operation

/-! Direct reduction of formulas to symbolic multivectors, without compiling them. -/

namespace Clifford.Expr

mutual

/-- The symbolic value of a formula over the values of its leaves. -/
def reduce (A : Algebra) (leaves : List Multivector) : Expr → Result Multivector
  | leaf index =>
    match leaves[index]? with
    | some value => .ok value
    | none => .error .indexRange
  | constant kind element q => do (← kind.value element).scale q
  | scaled q arg => do (← reduce A leaves arg).scale q
  | unary op arg => do op.apply A (← reduce A leaves arg)
  | binary op left right => do op.apply A (← reduce A leaves left) (← reduce A leaves right)
  | variadic op args => do op.apply A (← reduceAll A leaves args)
  | component arg element => do (← reduce A leaves arg).extract element
  | foreign kind => .error (.notReducible kind)

/-- The symbolic values of several formulas. -/
def reduceAll (A : Algebra) (leaves : List Multivector) : List Expr → Result (List Multivector)
  | [] => .ok []
  | e :: rest => do return (← reduce A leaves e) :: (← reduceAll A leaves rest)

end

end Clifford.Expr
