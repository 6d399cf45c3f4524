import Clifford.Entity.Basic
import Clifford.Numeric.Dense
import Clifford.Plan.Evaluate
import Clifford.Planner

/-! Computation: formulas and symbolic multivectors evaluated on entities. -/

namespace Clifford

/-- Evaluation in a floating point format, with the exponentials and logarithms of an algebra. -/
def Algebra.floating {α : Type} [Elementary α] (A : Algebra) : Interpretation Float α where
  toArithmetic := .floating
  dim := A.dim
  function f rows := do
    let tables ← DenseAlgebra.ofAlgebra A
    match f with
    | .exp => tables.exp rows
    | .log => tables.log rows

namespace Planner

variable {α : Type} [Elementary α]

/-- The outputs of formulas on input tensors. -/
def evaluate (planner : Planner) (p : Plan) (inputs : List (Tensor α)) :
    Result (List (NumericMultivector α)) :=
  p.evaluate planner.algebra.floating inputs

/-- The outputs of a compiled formula on entities. -/
def evaluateEntities (planner : Planner) (p : Plan) (entities : List (Entity α)) :
    Result (List (NumericMultivector α)) := do
  entities.forM fun e => e.data.requireWidth e.kind.size .entityFields e.kind.name
  planner.evaluate p (entities.map (·.data))

/-- The value of a symbolic multivector over the fields of entities. -/
def reify (planner : Planner) (a : Multivector) (entities : List (Entity α)) :
    Result (List (NumericMultivector α)) :=
  let size := inputSize (entities.map (·.kind))
  planner.evaluate ⟨[], [a], size, size⟩ (entities.map (·.data))

end Planner

end Clifford
