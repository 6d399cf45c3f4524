import Clifford.Code.Instruction
import Clifford.Code.Lowering
import Clifford.Code.Sharing

/-! Compiled programs: the temporaries of shared code, and then the code of the outputs. -/

namespace Clifford

namespace Code

mutual

/-- The instructions of code in which shared stems are loaded. -/
def emit (shared : List Code) (divisor : Bool) : Code → List Instruction
  | node head scale operands =>
    let code := node head scale operands
    match if code.isCandidate divisor then shared.idxOf? code.stem else none with
    | some index => [⟨code.checksum, scale, .load index⟩]
    | none =>
      joinOperands head.marksOperands (emitOperands shared head 0 operands) ++ [code.instruction]

/-- The instructions of the operands from a position on. -/
def emitOperands (shared : List Code) (head : Head) (position : Nat) :
    List Code → List (List Instruction)
  | [] => []
  | code :: rest =>
    emit shared (head.dividesBy position) code :: emitOperands shared head (position + 1) rest

end

/-- The instructions that compute a stem into the next temporary. -/
def emitTemporary (shared : List Code) (stem : Code) : List Instruction :=
  joinOperands stem.head.marksOperands (emitOperands shared stem.head 0 stem.operands)
    ++ [stem.instruction, Instruction.store]

end Code

/-- Linear code with the numbers of its temporaries and outputs. -/
structure Program where
  instructions : List Instruction
  temporaryCount : Nat
  outputCount : Nat

namespace Program

/-- The program of lowered trees. Equal computations are told by their stems, which are those that the
spans of the instructions are matched by. -/
def ofCodes (eliminate : Bool) (roots : List Code) : Program :=
  let shared := Sharing.hoisted eliminate roots
  { instructions := shared.flatMap (Code.emitTemporary shared)
      ++ roots.flatMap (Code.emit shared false)
    temporaryCount := shared.length
    outputCount := roots.length }

/-- The program of several formulas. -/
def compile (eliminate : Bool) (roots : List Expr) : Result Program := do
  return ofCodes eliminate (← roots.mapM Expr.lower)

/-- Splits instructions behind the last store. -/
def splitStores : List Instruction → List Instruction × List Instruction
  | [] => ([], [])
  | i :: rest =>
    let (stored, outputs) := splitStores rest
    if i.action = .store || !stored.isEmpty then (i :: stored, outputs) else ([], i :: outputs)

/-- The instructions up to the last temporary. -/
def temporaries (p : Program) : List Instruction := (splitStores p.instructions).1

/-- The instructions behind the last temporary. -/
def outputs (p : Program) : List Instruction := (splitStores p.instructions).2

end Program

end Clifford
