import Clifford.Formula.Expr
import Clifford.Rational.Literal

/-! The notation of formulas, where numbers and formulas mix as operands of one operator. -/

namespace Clifford

/-- What stands on either side of an operator. -/
inductive Operand
  | number (l : Literal)
  | expr (e : Expr)

namespace Operand

/-- The formula that an operand stands for, which takes an exact number as a constant. -/
def toExpr : Operand → Result Expr
  | expr e => .ok e
  | number l =>
    match l.scalar? with
    | some q => .ok (.scalar q)
    | none => .error (.notExpression l.kind)

/-- An operand handed to a constructor as it is. -/
def toRaw : Operand → Expr
  | expr e => e
  | number l => .foreign l.kind

/-- The written form of an operand. -/
def display (names : List String) : Operand → String
  | expr e => e.display names
  | number l => l.display

/-- An operator on formulas, in which at least one of the operands has to be one. -/
def lift (op : Expr → Expr → Expr) : Operand → Operand → Result Operand
  | number _, number _ => .error .unsupportedOperand
  | a, b => do return expr (op (← a.toExpr) (← b.toExpr))

/-- The sum of two operands. -/
def add (a b : Operand) : Result Operand := lift .add a b

/-- The difference of two operands. -/
def sub (a b : Operand) : Result Operand := lift .sub a b

/-- The product of two operands, where a number scales the formula beside it. -/
def mul (a b : Operand) : Result Operand :=
  let scale (l : Literal) (e : Expr) : Result Operand :=
    match l.scalar? with
    | some q => .ok (expr (.scaled q e))
    | none => .error (.notExpression l.kind)
  match a, b with
  | expr e, number l => scale l e
  | number l, expr e => scale l e
  | _, _ => lift (.binary .geometric) a b

/-- The quotient of two operands, where a number divides by scaling with its reciprocal. -/
def div (a b : Operand) : Result Operand :=
  match a, b with
  | expr e, number l =>
    match l.scalar? with
    | some q => do return expr (.scaled (← reciprocal q) e)
    | none => .error (.notExpression l.kind)
  | _, _ => lift (.binary .divide) a b

/-- The exterior product of two operands. -/
def wedge (a b : Operand) : Result Operand := lift .wedge a b

/-- The symmetric inner product of two operands. -/
def inner (a b : Operand) : Result Operand := lift (.binary .inner) a b

/-- The left contraction of two operands. -/
def contract (a b : Operand) : Result Operand := lift (.binary .contract) a b

/-- An operator that needs a formula on its left. -/
def fromLeft (op : Operand → Operand → Result Operand) : Operand → Operand → Result Operand
  | expr a, b => op (expr a) b
  | number _, _ => .error .unsupportedOperand

/-- The regressive product of any two operands. -/
def regressive (a b : Operand) : Result Operand := do
  return expr (.regressive (← a.toExpr) (← b.toExpr))

/-- The sandwich of any operand with another one. -/
def sandwich (a versor : Operand) : Result Operand := do
  return expr (.sandwich (← a.toExpr) (← versor.toExpr))

/-- The regressive product as an operator. -/
def meet : Operand → Operand → Result Operand := fromLeft regressive

/-- The sandwich as an operator. -/
def conjugate : Operand → Operand → Result Operand := fromLeft sandwich

/-- The scalar product of any two operands. -/
def scalarProduct (a b : Operand) : Result Operand := do
  return expr (.scalarProduct (← a.toExpr) (← b.toExpr))

/-- A function of an operand. -/
def apply (op : UnaryOp) (a : Operand) : Result Operand := do
  return expr (.unary op (← a.toExpr))

/-- The part of an operand on one blade. -/
def component (a : Operand) (element : Nat) : Result Operand := do
  return expr (.component (← a.toExpr) element)

/-- The negative of a formula, and of an exact number. -/
def neg : Operand → Result Operand
  | expr e => .ok (expr (.neg e))
  | number l =>
    match l with
    | .integer n => .ok (number (.integer (-n)))
    | .truth b => .ok (number (.integer (if b then -1 else 0)))
    | .ratio q => .ok (number (.ratio (-q)))
    | .fraction q => .ok (number (.fraction (-q)))
    | .binary x => .ok (number (.binary (-x)))
    | _ => .error .unsupportedOperand

/-- An operand under a plus sign. -/
def pos : Operand → Result Operand
  | expr e => .ok (expr e)
  | number l =>
    match l with
    | .truth b => .ok (number (.integer (if b then 1 else 0)))
    | .text _ => .error .unsupportedOperand
    | .nothing => .error .unsupportedOperand
    | .list => .error .unsupportedOperand
    | _ => .ok (number l)

/-- A function of operands that belongs to formulas, where a number has no such function. -/
def ofFormula (op : Expr → Expr) : Operand → Result Operand
  | expr e => .ok (expr (op e))
  | number _ => .error .unsupportedOperand

/-- The part of a formula on one blade, which a number does not have. -/
def index (a : Operand) (element : Nat) : Result Operand :=
  ofFormula (Expr.component · element) a

/-- A multiple of a constant. -/
def constant (kind : ConstantKind) (element : Nat) (l : Literal) : Result Operand := do
  return expr (.constant kind element (← l.coefficient))

end Operand

end Clifford
