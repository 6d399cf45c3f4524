import Clifford.Error
import Clifford.Formula.Operator
import Clifford.Rational.Arithmetic

/-! Formulas as trees of operators over numbered inputs. -/

namespace Clifford

/-- A formula; a foreign value stands where an operand was given that no formula can hold. -/
inductive Expr
  | leaf (index : Nat)
  | constant (kind : ConstantKind) (element : Nat) (q : Rat)
  | scaled (q : Rat) (arg : Expr)
  | unary (op : UnaryOp) (arg : Expr)
  | binary (op : BinaryOp) (left right : Expr)
  | variadic (op : VariadicOp) (args : List Expr)
  | component (arg : Expr) (element : Nat)
  | foreign (kind : String)

namespace Expr

/-- A formula of the bare kind, without an operator. -/
def bare : Expr := foreign "Expr"

/-- A number. -/
def scalar (q : Rat) : Expr := constant .basis 0 q

/-- The constant zero. -/
def zero : Expr := constant .zero 0 1

/-- The sum of two formulas. -/
def add (a b : Expr) : Expr := variadic .sum [a, b]

/-- The negative of a formula. -/
def neg (a : Expr) : Expr := scaled (-1) a

/-- The difference of two formulas. -/
def sub (a b : Expr) : Expr := add a (neg b)

/-- The exterior product of two formulas. -/
def wedge (a b : Expr) : Expr := variadic .wedge [a, b]

/-- The dual of a formula. -/
def dual (a : Expr) : Expr := unary .dual a

/-- The reverse of a formula. -/
def reverse (a : Expr) : Expr := unary .reverse a

/-- The regressive product, which is the exterior product seen through duals. -/
def regressive (a b : Expr) : Expr := dual (wedge (dual a) (dual b))

/-- The product `v * a * reverse v`. -/
def sandwich (a versor : Expr) : Expr :=
  binary .geometric (binary .geometric versor a) (reverse versor)

/-- The scalar part of the symmetric inner product. -/
def scalarProduct (a b : Expr) : Expr := component (binary .inner a b) 0

/-- An operation of one operand, given by its code. -/
def unaryOf (op : Opcode) (arg : Expr) : Result Expr :=
  match UnaryOp.ofOpcode? op with
  | some unaryOp => .ok (unary unaryOp arg)
  | none => .error (.violation (.arity op "unary"))

/-- An operation of two operands, given by its code. -/
def binaryOf (op : Opcode) (left right : Expr) : Result Expr :=
  match BinaryOp.ofOpcode? op with
  | some binaryOp => .ok (binary binaryOp left right)
  | none => .error (.violation (.arity op "binary"))

/-- An operation of any number of operands, given by its code. -/
def variadicOf (op : Opcode) (args : List Expr) : Result Expr :=
  match VariadicOp.ofOpcode? op with
  | some variadicOp => .ok (variadic variadicOp args)
  | none => .error (.violation (.arity op "variadic"))

/-- A constant with its coefficient. -/
def constantDisplay (kind : ConstantKind) (element : Nat) (q : Rat) : String :=
  match kind with
  | .basis => if element = 0 then ratioText q else ratioText q ++ "*e" ++ Text.binary element
  | _ => ratioText q ++ "*" ++ kind.name

mutual

/-- The written form of a formula, with names for its inputs. -/
def display (names : List String) : Expr → String
  | leaf index => names.getD index "Leaf" ++ "#" ++ toString index
  | constant kind element q => constantDisplay kind element q
  | scaled q arg => ratioText q ++ "*(" ++ display names arg ++ ")"
  | unary op arg => op.opcode.name ++ "(" ++ display names arg ++ ")"
  | binary op left right =>
    op.opcode.name ++ "(" ++ display names left ++ ", " ++ display names right ++ ")"
  | variadic op args => op.opcode.name ++ "(" ++ ", ".intercalate (displayAll names args) ++ ")"
  | component arg element => "(" ++ display names arg ++ ")[0b" ++ Text.binary element ++ "]"
  | foreign kind => kind

/-- The written forms of several formulas. -/
def displayAll (names : List String) : List Expr → List String
  | [] => []
  | e :: rest => display names e :: displayAll names rest

end

end Expr

end Clifford
