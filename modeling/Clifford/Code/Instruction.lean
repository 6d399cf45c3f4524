import Clifford.Code.Basic

/-! Linear code: instructions for a stack machine, in which operands precede their operation. -/

namespace Clifford

/-- What an instruction does to the stack and to the temporaries. -/
inductive Action
  | perform (head : Head)
  | load (index : Nat)
  | operand (length : Nat)
  | store
deriving DecidableEq, Repr

namespace Action

/-- The operation of an action. -/
def opcode : Action → Opcode
  | perform head => head.opcode
  | load _ => .load
  | operand _ => .operand
  | store => .store

/-- The numbers that tell actions of one operation apart. -/
def fields : Action → List Nat
  | perform head => head.fields
  | load index => [index]
  | operand length => [length]
  | store => []

end Action

/-- An action with the fingerprint and the multiplier of the value it pushes. -/
structure Instruction where
  checksum : Nat
  scale : Rat
  action : Action
deriving DecidableEq

namespace Instruction

/-- Marks the instructions that follow as one operand of a variadic operation. -/
def operand (length : Nat) : Instruction :=
  ⟨Checksum.ofNumbers [Checksum.salt .operand, length], 1, .operand length⟩

/-- Moves the top of the stack into the next temporary. -/
def store : Instruction := ⟨Checksum.ofNumbers [Checksum.salt .store], 1, .store⟩

/-- The numbers that identify an instruction: its operation and its fields. -/
def key (i : Instruction) : List Rat :=
  (i.action.opcode.number :: i.action.fields).map fun (n : Nat) => (n : Rat)

end Instruction

namespace Code

/-- The instruction that performs the root. -/
def instruction (code : Code) : Instruction := ⟨code.checksum, code.scale, .perform code.head⟩

/-- Joins the instructions of operands, each behind a mark of its length if marks are asked for. -/
def joinOperands (marked : Bool) (operands : List (List Instruction)) : List Instruction :=
  operands.flatMap fun is => if marked then Instruction.operand is.length :: is else is

mutual

/-- The instructions of code. -/
def instructions : Code → List Instruction
  | node head scale operands =>
    joinOperands head.marksOperands (operandInstructions operands)
      ++ [(node head scale operands).instruction]

/-- The instructions of several operands. -/
def operandInstructions : List Code → List (List Instruction)
  | [] => []
  | code :: rest => code.instructions :: operandInstructions rest

end

/-- The shape of code: the numbers of every instruction, with all multipliers but the last. -/
def shape (code : Code) : List (List Rat) :=
  let is := code.instructions
  is.mapIdx fun i instruction =>
    if i + 1 = is.length then instruction.key else instruction.key ++ [instruction.scale]

end Code

end Clifford
