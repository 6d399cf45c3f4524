import Clifford.Plan.Basic

/-! The stack machine that runs a program on symbolic values and records a plan. -/

namespace Clifford

/-- The stack with its top first, the temporaries and steps in order, and the next free id. -/
structure Machine where
  stack : List Multivector
  temporaries : List Multivector
  steps : List Step
  nextId : Nat

namespace Machine

/-- The machine before its first instruction. -/
def start (id : Nat) : Machine := ⟨[], [], [], id⟩

/-- The top of the stack, and the machine without it. -/
def pop (m : Machine) : Result (Multivector × Machine) :=
  match m.stack with
  | [] => .error .indexRange
  | top :: rest => .ok (top, { m with stack := rest })

/-- The number of values that an operation of the given number of operands finds: more operands
than there are values name a position beyond the bottom, which counts from the top again. -/
def available (depth count : Nat) : Nat :=
  if count ≤ depth then count else min depth (count - depth)

/-- The operands of an operation in the order they were pushed, and the machine without them. -/
def popOperands (m : Machine) (count : Nat) : List Multivector × Machine :=
  let taken := available m.stack.length count
  ((m.stack.take taken).reverse, { m with stack := m.stack.drop taken })

/-- Records a function on dense multivectors, which is known exactly for the exponential of zero. -/
def applyFunction (A : Algebra) (m : Machine) (function : RotorFunction) (arg : Multivector) :
    Result (Multivector × Machine) := do
  function.requireArgument arg
  if arg.isZero then return (.scalar 1, m)
  let block ← function.block A m.nextId
  let step := Step.block m.nextId function arg block.elements
  return (block, { m with steps := m.steps ++ [step], nextId := m.nextId + block.terms.length })

/-- The value of an operation, and the machine without its operands. -/
def perform (A : Algebra) (leaves : List Multivector) (m : Machine) (head : Head) :
    Result (Multivector × Machine) := do
  match head with
  | .input index =>
    match leaves[index]? with
    | some value => return (value, m)
    | none => throw .indexRange
  | .constant kind element => return (← kind.value element, m)
  | .unary op =>
    let (arg, m) ← m.pop
    match RotorFunction.ofUnaryOp? op with
    | some function => m.applyFunction A function arg
    | none => return (← op.apply A arg, m)
  | .binary op =>
    let (right, m) ← m.pop
    let (left, m) ← m.pop
    return (← op.apply A left right, m)
  | .variadic op count =>
    let (args, m) := m.popOperands count
    return (← op.apply A args, m)
  | .component element =>
    let (arg, m) ← m.pop
    return (← arg.extract element, m)

/-- Pushes a multiple of a value. -/
def push (m : Machine) (value : Multivector) (q : Rat) : Result Machine := do
  return { m with stack := (← value.scale q) :: m.stack }

/-- Moves the top of the stack into the next temporary, with a fresh indeterminate for each term. -/
def store (m : Machine) : Result Machine := do
  let (value, m) ← m.pop
  return { m with
    temporaries := m.temporaries ++ [← value.reference m.nextId]
    steps := m.steps ++ [Step.value m.nextId value]
    nextId := m.nextId + value.terms.length }

/-- Runs one instruction. -/
def step (A : Algebra) (leaves : List Multivector) (m : Machine) (i : Instruction) :
    Result Machine := do
  match i.action with
  | .operand _ => return m
  | .store => m.store
  | .load index =>
    match m.temporaries[index]? with
    | some value => m.push value i.scale
    | none => throw .indexRange
  | .perform head =>
    let (value, m) ← perform A leaves m head
    m.push value i.scale

/-- Runs instructions in order. -/
def run (A : Algebra) (leaves : List Multivector) (m : Machine) (is : List Instruction) :
    Result Machine :=
  is.foldlM (step A leaves) m

end Machine

/-- The plan of a program over the values of its leaves, with ids for its steps from `id` on. -/
def Plan.ofProgram (A : Algebra) (leaves : List Multivector) (id : Nat) (p : Program) :
    Result Plan := do
  let m ← (Machine.start id).run A leaves p.instructions
  if m.stack.length = p.outputCount then
    return ⟨m.steps, m.stack.reverse, id, m.nextId⟩
  else throw (.violation (.stackSize m.stack.length p.outputCount))

end Clifford
