import Clifford.Numeric.Arithmetic
import Clifford.Plan.Basic
import Clifford.Tensor.Broadcast

/-! Evaluation of plans on a batch: every indeterminate has a column with one value for each row. -/

namespace Clifford

/-- The columns of the indeterminates that have values. -/
abbrev Values (α : Type) := Nat → Option (List α)

/-- Gives columns to consecutive ids. -/
def Values.assign {α : Type} (values : Values α) (base : Nat) (columns : List (List α)) :
    Values α := fun id =>
  if base ≤ id ∧ id - base < columns.length then columns[id - base]? else values id

namespace Arithmetic

variable {κ α : Type}

/-- Multiplies one more power into a coefficient and a column. -/
def mulPower (ar : Arithmetic κ α) (values : Values α) (product : κ × Option (List α)) (p : Power) :
    Result (κ × Option (List α)) := do
  let (coefficient, column?) := product
  match ar.constantPower? p.id p.degree with
  | some power => return (ar.mulCoefficient coefficient (← power), column?)
  | none =>
    match values p.id with
    | none => throw .unknownName
    | some base =>
      let factor := base.map (← ar.power p.degree)
      match column? with
      | none => return (coefficient, some factor)
      | some column => return (coefficient, some (List.zipWith ar.mul column factor))

/-- The column of a monomial over the given number of rows. -/
def monomial (ar : Arithmetic κ α) (count : Nat) (values : Values α) (m : Monomial) :
    Result (List α) := do
  let (coefficient, column?) ←
    m.powers.foldlM (ar.mulPower values) (← ar.ofRat m.coefficient, none)
  match column? with
  | none => return List.replicate count (← ar.constant coefficient)
  | some column => return column.map fun x => ar.mul x (ar.embed coefficient)

/-- Adds the column of one more monomial. -/
def addMonomial (ar : Arithmetic κ α) (count : Nat) (values : Values α) (column : List α)
    (m : Monomial) : Result (List α) := do
  return List.zipWith ar.add column (← ar.monomial count values m)

/-- The column of a sum of monomials, of which there has to be one. -/
def monomials (ar : Arithmetic κ α) (count : Nat) (values : Values α) :
    List Monomial → Result (List α)
  | [] => .error .emptyFold
  | m :: rest => do rest.foldlM (ar.addMonomial count values) (← ar.monomial count values m)

/-- Applies the deferred function of a multivector and its multiplier to a column. -/
def applyDeferred (ar : Arithmetic κ α) (a : Multivector) (column : List α) : Result (List α) :=
  if a.isPlain then .ok column
  else do
    let scale := ar.embed (← ar.ofRat a.opScale)
    return column.map fun x => ar.mul (ar.deferred a.op x) scale

/-- The columns of the terms of a multivector. -/
def terms (ar : Arithmetic κ α) (count : Nat) (values : Values α) (a : Multivector) :
    Result (List (List α)) :=
  a.terms.mapM fun t => do ar.applyDeferred a (← ar.monomials count values t.monomials)

/-- The columns of all blades of a space, where a blade without a term is zero. -/
def denseColumns (ar : Arithmetic κ α) (dim count : Nat) (values : Values α) (a : Multivector) :
    Result (List (List α)) := do
  let columns := a.elements.zip (← ar.terms count values a)
  if columns.any fun c => dim ≤ c.1 then throw .indexRange
  return (List.range dim).map fun blade =>
    (columns.reverse.lookup blade).getD (List.replicate count ar.zero)

end Arithmetic

/-- A number system together with the exponentials and logarithms of rows of coefficients. -/
structure Interpretation (κ α : Type) extends Arithmetic κ α where
  dim : Nat
  function : RotorFunction → List (List α) → Result (List (List α))

namespace Interpretation

variable {κ α : Type}

/-- Runs one step of a plan. -/
def step (I : Interpretation κ α) (count : Nat) (values : Values α) : Step → Result (Values α)
  | .value base a => do return values.assign base (← I.terms count values a)
  | .block base function arg elements => do
    let columns ← I.denseColumns I.dim count values arg
    let rows ← I.function function (Tensor.transpose count columns)
    return values.assign base (elements.map fun blade => rows.map fun row => row.getD blade I.zero)

/-- The columns of the outputs of a plan over a number of rows, from the columns of its inputs. -/
def run (I : Interpretation κ α) (p : Plan) (count : Nat) (inputs : List (List α)) :
    Result (List (List (List α))) := do
  let values := Values.assign (fun _ => none) 0 inputs
  let values ← p.steps.foldlM (I.step count) values
  p.outputs.mapM (I.terms count values)

end Interpretation

/-- Coefficients on some blades, along the last dimension of a tensor. -/
structure NumericMultivector (α : Type) where
  elements : List Nat
  data : Tensor α

namespace Plan

variable {κ α : Type}

/-- The last dimension of an input. -/
def inputWidth (t : Tensor α) : Result Nat :=
  match t.width? with
  | some width => .ok width
  | none => .error .indexRange

/-- The columns of an input over a batch that it broadcasts to. -/
def inputColumns (shape : List Nat) (t : Tensor α) : List (List α) :=
  let rows := broadcastEntries t.batchShape shape t.rows
  (List.range (t.shape.getLastD 0)).map fun i => rows.filterMap (·[i]?)

/-- The outputs of a plan on input tensors whose batches broadcast. The columns are broadcast before they
are combined, which gives the outputs of columns combined in the shapes that they have. -/
def evaluate (p : Plan) (I : Interpretation κ α) (inputs : List (Tensor α)) :
    Result (List (NumericMultivector α)) := do
  let found := (← inputs.mapM inputWidth).foldl (· + ·) 0
  if found ≠ p.inputSize then throw (.violation (.inputFields found p.inputSize))
  let shape ← broadcastShapes (inputs.map Tensor.batchShape)
  let columns := inputs.flatMap (inputColumns shape)
  let outputs ← I.run p (Tensor.count shape) columns
  return List.zipWith (fun (a : Multivector) columns =>
    ⟨a.elements, Tensor.ofColumns shape columns⟩) p.outputs outputs

end Plan

end Clifford
