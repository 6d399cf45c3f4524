import Clifford.Code.Program

/-! Spans: the parts of linear code that compute the values of its instructions. Code is compiled by
matching spans with one fingerprint, one length and one structure. -/

namespace Clifford

/-- A part of linear code that computes a value: the place where it begins, that of its last instruction,
and the parts that compute the operands. -/
inductive Span
  | node (first root : Nat) (operands : List Span)

namespace Span

/-- The place where a span begins. -/
def first : Span → Nat
  | node first _ _ => first

/-- The place of the last instruction. -/
def root : Span → Nat
  | node _ root _ => root

/-- The spans of the operands. -/
def operands : Span → List Span
  | node _ _ operands => operands

end Span

/-- The next place in linear code, the spans of the values on the stack with its top first, and the spans
of all values in order. -/
structure Analysis where
  place : Nat
  stack : List Span
  spans : List Span

namespace Analysis

/-- The analysis of no code. -/
def start : Analysis := ⟨0, [], []⟩

/-- The place where an operation begins: that of its first operand, or of the mark before it. -/
def begins (marked : Bool) (place : Nat) : List Span → Nat
  | [] => place
  | operand :: _ => if marked then operand.first - 1 else operand.first

/-- Finds the span of an operation on the spans on top of the stack. -/
def perform (t : Analysis) (head : Head) : Analysis :=
  let operands := (t.stack.take head.arity).reverse
  let span := .node (begins head.marksOperands t.place operands) t.place operands
  ⟨t.place + 1, span :: t.stack.drop head.arity, t.spans ++ [span]⟩

/-- Looks at one instruction, of which marks and stores have no span. -/
def step (t : Analysis) (i : Instruction) : Analysis :=
  match i.action with
  | .perform head => t.perform head
  | .load _ =>
    let span := .node t.place t.place []
    ⟨t.place + 1, span :: t.stack, t.spans ++ [span]⟩
  | .operand _ => { t with place := t.place + 1 }
  | .store => { t with place := t.place + 1 }

/-- Looks at instructions in order. -/
def run (t : Analysis) (is : List Instruction) : Analysis := is.foldl step t

end Analysis

/-- What spans are matched by: the fingerprint of the last instruction, the length, and the numbers of all
instructions with all multipliers but the last. -/
structure SpanKey where
  checksum? : Option Nat
  length : Nat
  shape : List (List Rat)
deriving DecidableEq

namespace Span

variable (is : List Instruction) (spans : List Span)

/-- The instructions of a span. -/
def instructions (s : Span) : List Instruction := (is.drop s.first).take (s.root + 1 - s.first)

/-- The operation of the last instruction of a span. -/
def head? (s : Span) : Option Head := do
  match (← is[s.root]?).action with
  | .perform head => some head
  | _ => none

/-- Whether a quotient among all spans divides by the one that ends at a place. -/
def dividesBy (place : Nat) : Bool :=
  spans.any fun s => s.head? is = some (.binary .divide) && s.operands[1]?.map root = some place

/-- Whether a span can be shared: an operator always, and a projection where it is a divisor. -/
def isCandidate (s : Span) : Bool :=
  (s.head? is).any fun head => head.isOperator || (dividesBy is spans s.root && head.isComponent)

/-- The numbers of instructions, with all multipliers but the last. -/
def shapeOf (is : List Instruction) : List (List Rat) :=
  is.mapIdx fun i instruction =>
    if i + 1 = is.length then instruction.key else instruction.key ++ [instruction.scale]

/-- What a span is matched by. -/
def key (s : Span) : SpanKey :=
  ⟨is[s.root]?.map (·.checksum), (s.instructions is).length, shapeOf (s.instructions is)⟩

mutual

/-- Adds the keys that a span refers to in front of those seen before, where a key that has been seen is
referred to once more and not looked into again. -/
def references : Span → List SpanKey → List SpanKey
  | node first root operands, seen =>
    let s := node first root operands
    if s.isCandidate is spans then
      if seen.contains (s.key is) then s.key is :: seen else referencesOf operands (s.key is :: seen)
    else referencesOf operands seen

/-- Adds the keys that several spans refer to. -/
def referencesOf : List Span → List SpanKey → List SpanKey
  | [], seen => seen
  | s :: rest, seen => referencesOf rest (references s seen)

end

/-- The keys of a divisor or argument that has to be computed on its own. -/
def isolated (s : Span) : List SpanKey := if s.isCandidate is spans then [s.key is] else []

/-- The keys that have to be computed on their own for a span: a quotient with its divisor, and a
transcendental function with its argument. -/
def requirements (s : Span) : List SpanKey :=
  match s.head? is, s.operands with
  | some (.binary .divide), [_, divisor] => s.key is :: divisor.isolated is spans
  | some (.unary op), [arg] => if op.isTranscendental then s.key is :: arg.isolated is spans else []
  | _, _ => []

/-- Whether the operands of a span are marked with their lengths. -/
def marksOperands (s : Span) : Bool := (s.head? is).any Head.marksOperands

variable (shared : List SpanKey)

mutual

/-- The instructions of a span in which shared keys are loaded. -/
def emit : Span → List Instruction
  | node first root operands =>
    let s := node first root operands
    match if s.isCandidate is spans then shared.idxOf? (s.key is) else none with
    | some index => is[root]?.toList.map fun i => { i with action := .load index }
    | none => Code.joinOperands (s.marksOperands is) (emitOperands operands) ++ is[root]?.toList

/-- The instructions of several spans. -/
def emitOperands : List Span → List (List Instruction)
  | [] => []
  | s :: rest => emit s :: emitOperands rest

end

/-- The instructions that compute a span without its multiplier into the next temporary. -/
def emitTemporary (s : Span) : List Instruction :=
  Code.joinOperands (s.marksOperands is) (emitOperands is spans shared s.operands)
    ++ is[s.root]?.toList.map (fun i => { i with scale := 1 }) ++ [Instruction.store]

/-- The first one of some spans with a key, which stands for the others. -/
def representative? (candidates : List Span) (key : SpanKey) : Option Span :=
  candidates.find? fun s => s.key is = key

end Span

/-- The program of linear code, in which the first span with a key stands for all others. -/
def Program.ofLinear (eliminate : Bool) (is : List Instruction) : Program :=
  let t := Analysis.start.run is
  let candidates := t.spans.filter (Span.isCandidate is t.spans)
  let required := t.spans.flatMap (Span.requirements is t.spans)
  let referred := Span.referencesOf is t.spans t.stack.reverse []
  let shared := (candidates.map (Span.key is)).eraseDups.filter fun key =>
    required.contains key || (eliminate && 1 < referred.count key)
  let stored := shared.filterMap (Span.representative? is candidates)
  { instructions := stored.flatMap (Span.emitTemporary is t.spans shared)
      ++ t.stack.reverse.flatMap (Span.emit is t.spans shared)
    temporaryCount := shared.length
    outputCount := t.stack.length }

end Clifford
