import Clifford.Benchmark.Formula
import Clifford.Numeric.Placement

/-! Runs of benchmarks: batches of data, the errors found on them, and their summary. -/

namespace Clifford.Benchmark

/-- How a benchmark is run. -/
structure Settings where
  task : String := "formula"
  formula : String := "rotate_vector"
  seed : Int := 42
  device : String := "auto"
  precision : String := "float32"
  eliminate : Bool := true
  batch : Nat := 1024
  iterations : Nat := 10
  tolerance : Float := 1e-4

/-- A benchmark that is ready to run. -/
structure Task where
  benchmark : Benchmark
  precision : Precision
  planner : Planner
  program : Program
  settings : Settings

/-- The task of some settings, whose formula and precision have to be known. -/
def Settings.prepare (s : Settings) : Result Task := do
  let benchmark ← ofText s.formula
  let placement ← Placement.ofNames s.device s.precision
  let planner : Planner := { algebra := ← benchmark.algebra, eliminate := s.eliminate }
  return ⟨benchmark, placement.precision, planner, ← benchmark.program s.eliminate, s⟩

/-- The errors of several batches, and whether they are within the tolerance. -/
structure Summary where
  formula : String
  maxError : Float
  meanError : Float
  passed : Bool

namespace Task

/-- The summary of the errors of several batches, which are zero without any. -/
def summarize (t : Task) (errors : List Float) : Summary :=
  let worst := match errors with
    | [] => 0
    | first :: rest => rest.foldl Elementary.larger first
  let mean := if errors.isEmpty then 0 else total errors / Float.ofNat errors.length
  ⟨t.benchmark.name, worst, mean, worst ≤ t.settings.tolerance⟩

/-- What a benchmark finds on one batch. -/
structure Outcome (α : Type) where
  got : Tensor α
  reference : Tensor α
  error : Float
  planner : Planner

variable {α : Type} [Elementary α]

/-- The output of a formula that has a single one. -/
def onlyOutput : List (NumericMultivector α) → Result (NumericMultivector α)
  | [m] => .ok m
  | _ => .error .indexRange

/-- Computes the formula and its closed form on two entities. -/
def compute (t : Task) (x y : Entity α) : Result (Outcome α) := do
  let (plan, planner) ← t.planner.compile [t.benchmark.formula] [x.kind, y.kind]
  let got ← t.benchmark.read (← onlyOutput (← planner.evaluateEntities plan [x, y]))
  let reference ← t.benchmark.reference x.data y.data
  return ⟨got, reference, ← largestError got reference, planner⟩

/-- The outcome on two tensors of the fields of the entities. -/
def computeTensors (t : Task) (tensors : List (Tensor α)) : Result (Outcome α) := do
  match ← (t.benchmark.inputs.zip tensors).mapM fun (kind, data) => Entity.ofTensor kind data with
  | [x, y] => t.compute x y
  | _ => throw .unsupportedOperand

/-- The fields of a batch of entities of each kind, with entries drawn from a sequence, the first one at
the given place. -/
def drawFields (draws : Nat → Float) (batch : Nat) : Nat → List EntityKind → List (Tensor α)
  | _, [] => []
  | place, kind :: kinds =>
    let count := batch * kind.size
    ⟨[batch, kind.size], (List.range' place count).map fun k => Elementary.ofDouble (draws k)⟩
      :: drawFields draws batch (place + count) kinds

/-- The number of entries that a batch of every input takes. -/
def batchSize (t : Task) : Nat := t.settings.batch * Planner.inputSize t.benchmark.inputs

/-- The errors on the given number of batches, drawn from a sequence from a place on. -/
def errorsFrom (α : Type) [Elementary α] (t : Task) (draws : Nat → Float) :
    Nat → Nat → Result (List Float)
  | 0, _ => .ok []
  | count + 1, place => do
    let tensors : List (Tensor α) := drawFields draws t.settings.batch place t.benchmark.inputs
    let outcome ← t.computeTensors tensors
    let t := { t with planner := outcome.planner }
    return outcome.error :: (← errorsFrom α t draws count (place + t.batchSize))

/-- Runs a task on batches that are drawn from a sequence. -/
def run (t : Task) (draws : Nat → Float) : Result Summary := do
  let errors ← match t.precision with
    | .single => errorsFrom Float32 t draws t.settings.iterations 0
    | .double => errorsFrom Float t draws t.settings.iterations 0
  return t.summarize errors

end Task

/-- Prepares and runs the task of some settings on batches that are drawn from a sequence, or on entities
whose fields are all one. -/
def Settings.run (s : Settings) (draws : Nat → Float := fun _ => 1) : Result Summary := do
  if s.task ≠ "formula" then throw (.unknownTask s.task ["formula"])
  (← s.prepare).run draws

/-- The number of entries that a run draws. -/
def Settings.drawCount (s : Settings) : Nat :=
  match s.prepare with
  | .ok task => s.iterations * task.batchSize
  | .error _ => 0

end Clifford.Benchmark
