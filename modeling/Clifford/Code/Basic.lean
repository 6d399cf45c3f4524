import Clifford.Checksum
import Clifford.Formula.Operator
import Clifford.Rational.Arithmetic

/-! Lowered code: trees of operations in which every node carries the multiplier of its result. -/

namespace Clifford

/-- What a node of code does with the values of its operands. -/
inductive Head
  | input (index : Nat)
  | constant (kind : ConstantKind) (element : Nat)
  | unary (op : UnaryOp)
  | binary (op : BinaryOp)
  | variadic (op : VariadicOp) (count : Nat)
  | component (element : Nat)
deriving DecidableEq, Repr

namespace Head

/-- The operation of a node. -/
def opcode : Head → Opcode
  | input _ => .input
  | constant _ _ => .constant
  | unary op => op.opcode
  | binary op => op.opcode
  | variadic op _ => op.opcode
  | component _ => .component

/-- The node of an operation with at most one number, which a constant has more of. -/
def ofOpcode? (op : Opcode) (n : Nat) : Option Head :=
  match op with
  | .input => some (input n)
  | .component => some (component n)
  | _ => (UnaryOp.ofOpcode? op).map unary
      <|> (BinaryOp.ofOpcode? op).map binary
      <|> (VariadicOp.ofOpcode? op).map (variadic · n)

/-- The number of operands of a node. -/
def arity : Head → Nat
  | input _ => 0
  | constant _ _ => 0
  | unary _ => 1
  | binary _ => 2
  | variadic _ count => count
  | component _ => 1

/-- The numbers that tell nodes of one operation apart. -/
def fields : Head → List Nat
  | input index => [index]
  | constant kind element => [kind.number, element]
  | variadic _ count => [count]
  | component element => [element]
  | _ => []

/-- Whether the operands of a node are marked with their lengths. -/
def marksOperands : Head → Bool
  | variadic _ _ => true
  | _ => false

/-- Whether a node is an operator, whose result can be shared. -/
def isOperator : Head → Bool
  | unary _ => true
  | binary _ => true
  | variadic _ _ => true
  | _ => false

/-- Whether a node projects onto one blade. -/
def isComponent : Head → Bool
  | component _ => true
  | _ => false

/-- The fingerprint of a node from the keys of its operands. -/
def checksum (head : Head) (keys : List Nat) : Nat :=
  let salt := Checksum.salt head.opcode
  match head with
  -- The keys of a variadic node are blended, so the order of its operands leaves no trace.
  | variadic _ count => Checksum.ofNumbers [salt, count, keys.foldl (· ||| ·) 0]
  | _ => Checksum.ofNumbers (salt :: keys ++ head.fields)

end Head

/-- A tree of code. -/
inductive Code
  | node (head : Head) (scale : Rat) (operands : List Code)

namespace Code

/-- The operation at the root. -/
def head : Code → Head
  | node head _ _ => head

/-- The multiplier of the result. -/
def scale : Code → Rat
  | node _ scale _ => scale

/-- The operands of the root. -/
def operands : Code → List Code
  | node _ _ operands => operands

mutual

/-- Equality of trees is decided node by node. -/
def decideEq : (a b : Code) → Decidable (a = b)
  | node h s xs, node k t ys =>
    if root : h = k ∧ s = t then
      match decideEqAll xs ys with
      | isTrue same => isTrue (by rw [root.1, root.2, same])
      | isFalse differ => isFalse fun eq => differ (by injection eq)
    else isFalse fun eq => root (by injection eq with heads scales; exact ⟨heads, scales⟩)

/-- Equality of operands is decided one after the other. -/
def decideEqAll : (xs ys : List Code) → Decidable (xs = ys)
  | [], [] => isTrue rfl
  | [], _ :: _ => isFalse nofun
  | _ :: _, [] => isFalse nofun
  | x :: xs, y :: ys =>
    match decideEq x y with
    | isFalse differ => isFalse fun eq => differ (by injection eq)
    | isTrue first =>
      match decideEqAll xs ys with
      | isTrue rest => isTrue (by rw [first, rest])
      | isFalse differ => isFalse fun eq => differ (by injection eq)

end

instance : DecidableEq Code := decideEq

/-- A node without operands. -/
def leaf (head : Head) (scale : Rat) : Code := node head scale []

/-- The code of zero. -/
def zero : Code := leaf (.constant .zero 0) 1

/-- Whether code is the constant zero. -/
def isZero (code : Code) : Bool :=
  match code.head with
  | .constant .zero _ => true
  | _ => false

/-- Code with another multiplier of its result. -/
def withScale (code : Code) (q : Rat) : Code := node code.head q code.operands

/-- Code without the multiplier of its result, which equal computations have in common. -/
def stem (code : Code) : Code := code.withScale 1

/-- Multiplies the result of code. -/
def rescale (code : Code) (q : Rat) : Result Code :=
  if q = 1 || code.isZero then .ok code
  else if q = 0 then .ok zero
  else do return code.withScale (← gatedMul code.scale q)

/-- The key of an operand, from its fingerprint and its multiplier. -/
def keyOf (checksum : Nat) (scale : Rat) : Nat :=
  Checksum.ofParts [.integer checksum, .quotient scale]

mutual

/-- The fingerprint of code, in which the multiplier of its result has no part. -/
def checksum : Code → Nat
  | node head _ operands => head.checksum (operandKeys operands)

/-- The keys of several operands. -/
def operandKeys : List Code → List Nat
  | [] => []
  | code :: rest => keyOf code.checksum code.scale :: operandKeys rest

end

/-- The key of code as an operand. -/
def key (code : Code) : Nat := keyOf code.checksum code.scale

end Code

end Clifford
