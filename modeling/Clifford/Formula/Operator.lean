import Clifford.Opcode

/-! The operators of formulas by the number of operands they take, and the constants. -/

namespace Clifford

/-- Operators of one operand. -/
inductive UnaryOp
  | reverse
  | dual
  | sqrt
  | sin
  | cos
  | tan
  | exp
  | log
deriving DecidableEq, Repr

namespace UnaryOp

/-- Every operator of one operand. -/
def all : List UnaryOp := [reverse, dual, sqrt, sin, cos, tan, exp, log]

/-- The operation of an operator. -/
def opcode : UnaryOp → Opcode
  | reverse => .reverse
  | dual => .dual
  | sqrt => .sqrt
  | sin => .sin
  | cos => .cos
  | tan => .tan
  | exp => .exp
  | log => .log

/-- The operator of an operation of one operand. -/
def ofOpcode? (op : Opcode) : Option UnaryOp := all.find? (·.opcode = op)

/-- The function of a written name that formulas are built with. -/
def ofFunction? : String → Option UnaryOp
  | "reverse" => some reverse
  | "dual" => some dual
  | "sqrt" => some sqrt
  | "sin" => some sin
  | "cos" => some cos
  | "tan" => some tan
  | "exp" => some exp
  | "log" => some log
  | _ => none

/-- Operators without a polynomial form, which are computed once their operand has a value. -/
def isTranscendental : UnaryOp → Bool
  | reverse => false
  | dual => false
  | _ => true

end UnaryOp

/-- Operators of two operands. -/
inductive BinaryOp
  | geometric
  | contract
  | inner
  | divide
deriving DecidableEq, Repr

namespace BinaryOp

/-- Every operator of two operands. -/
def all : List BinaryOp := [geometric, contract, inner, divide]

/-- The operation of an operator. -/
def opcode : BinaryOp → Opcode
  | geometric => .geometric
  | contract => .contract
  | inner => .inner
  | divide => .divide

/-- The operator of an operation of two operands. -/
def ofOpcode? (op : Opcode) : Option BinaryOp := all.find? (·.opcode = op)

end BinaryOp

/-- Operators of any number of operands. -/
inductive VariadicOp
  | sum
  | wedge
deriving DecidableEq, Repr

namespace VariadicOp

/-- Every operator of any number of operands. -/
def all : List VariadicOp := [sum, wedge]

/-- The operation of an operator. -/
def opcode : VariadicOp → Opcode
  | sum => .sum
  | wedge => .exterior

/-- The operator of an operation of any number of operands. -/
def ofOpcode? (op : Opcode) : Option VariadicOp := all.find? (·.opcode = op)

end VariadicOp

/-- The constants of formulas. -/
inductive ConstantKind
  | zero
  | basis
  | pi
  | e
deriving DecidableEq, Repr

namespace ConstantKind

/-- Every constant, in the order of its number. -/
def all : List ConstantKind := [zero, basis, pi, e]

/-- The number of a constant. -/
def number : ConstantKind → Nat
  | zero => 0
  | basis => 1
  | pi => 2
  | e => 3

/-- The written name of a constant. -/
def name : ConstantKind → String
  | zero => "zero"
  | basis => "basis"
  | pi => "pi"
  | e => "e"

/-- The constant of a written name. -/
def ofName? (text : String) : Option ConstantKind := all.find? (·.name = text)

end ConstantKind

end Clifford
