import Clifford.Algebra
import Clifford.Formula.Operator

/-! The meaning of the operators of formulas on symbolic multivectors. -/

namespace Clifford

/-- The symbolic value of a constant. -/
def ConstantKind.value (kind : ConstantKind) (element : Nat) : Result Multivector :=
  match kind with
  | .zero => .ok .zero
  | .basis => .ok (.basis element 1)
  | .pi => Multivector.indeterminate piId 0 1 1
  | .e => Multivector.indeterminate eId 0 1 1

/-- The value of an operator of one operand, where exponentials and logarithms have none. -/
def UnaryOp.apply (op : UnaryOp) (A : Algebra) (arg : Multivector) : Result Multivector :=
  match op with
  | .reverse => arg.reverse
  | .dual => A.dual arg
  | .sqrt => arg.withOp .sqrt
  | .sin => arg.withOp .sin
  | .cos => arg.withOp .cos
  | .tan => arg.withOp .tan
  | .exp => .error (.domain (.noPolynomialForm .exp))
  | .log => .error (.domain (.noPolynomialForm .log))

/-- The value of an operator of two operands. -/
def BinaryOp.apply (op : BinaryOp) (A : Algebra) (left right : Multivector) :
    Result Multivector :=
  match op with
  | .geometric => A.geometric left right
  | .contract => A.contract left right
  | .inner => A.inner left right
  | .divide => left.divide right

/-- The value of two operands of an operator of any number of them. -/
def VariadicOp.combine (op : VariadicOp) (A : Algebra) (left right : Multivector) :
    Result Multivector :=
  match op with
  | .sum => left.add right
  | .wedge => A.wedge left right

/-- The value of an operator of any number of operands, taken from the left. -/
def VariadicOp.apply (op : VariadicOp) (A : Algebra) : List Multivector → Result Multivector
  | [] => .error .emptyFold
  | first :: rest => rest.foldlM (op.combine A) first

end Clifford
