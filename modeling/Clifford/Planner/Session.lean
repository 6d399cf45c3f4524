import Clifford.Planner.Compute

/-! Sessions: the calls that one planner answers one after another. -/

namespace Clifford.Planner

/-- A use of a planner: formulas are compiled over kinds of entities, computed on entities, or reduced to
symbolic multivectors. -/
inductive Call (α : Type)
  | compile (roots : List Expr) (kinds : List EntityKind)
  | compute (roots : List Expr) (entities : List (Entity α))
  | reduce (roots : List Expr) (kinds : List EntityKind)

/-- The formulas that a call compiles, with the kinds of their entities. -/
def Call.compiles? {α : Type} : Call α → Option (List Expr × List EntityKind)
  | compile roots kinds => some (roots, kinds)
  | compute roots entities => some (roots, entities.map (·.kind))
  | reduce _ _ => none

/-- What a planner gives. -/
inductive Answer (α : Type)
  | plan (p : Plan)
  | outputs (values : List (NumericMultivector α))
  | reduced (values : List Multivector)

variable {α : Type} [Elementary α]

/-- The answer to a call, and the planner behind it, which keeps a plan even if its evaluation fails. -/
def call (planner : Planner) : Call α → Result (Answer α) × Planner
  | .compile roots kinds =>
    match planner.compile roots kinds with
    | .ok (p, next) => (.ok (.plan p), next)
    | .error cause => (.error cause, planner)
  | .compute roots entities =>
    match planner.compile roots (entities.map (·.kind)) with
    | .ok (p, next) => ((next.evaluateEntities p entities).map .outputs, next)
    | .error cause => (.error cause, planner)
  | .reduce roots kinds =>
    ((roots.mapM fun root => planner.reduce root kinds).map .reduced, planner)

/-- The planner behind several calls. -/
def after (planner : Planner) (calls : List (Call α)) : Planner :=
  calls.foldl (fun planner c => (planner.call c).2) planner

end Clifford.Planner
