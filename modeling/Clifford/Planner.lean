import Clifford.Entity.Kind
import Clifford.Formula.Reduce
import Clifford.Plan.Machine

/-! The planner: compiles formulas over kinds of entities, and keeps the plan of each. -/

namespace Clifford

/-- A plan with the lowered formulas and the kinds of entities that it belongs to. -/
structure CachedPlan where
  codes : List Code
  kinds : List EntityKind
  plan : Plan

/-- An algebra, whether common subexpressions are eliminated, and the plans so far. -/
structure Planner where
  algebra : Algebra
  eliminate : Bool := true
  plans : List CachedPlan := []

namespace Planner

/-- The written form of a planner. -/
def display (planner : Planner) : String :=
  "Engine(" ++ planner.algebra.display ++ ", device=cpu)"

/-- The number of fields of several entities. -/
def inputSize : List EntityKind → Nat
  | [] => 0
  | kind :: rest => kind.size + inputSize rest

/-- The symbolic values of entities whose fields take consecutive ids from `id` on. -/
def symbolsFrom (id : Nat) : List EntityKind → Result (List Multivector)
  | [] => .ok []
  | kind :: rest => do return (← kind.leaf id) :: (← symbolsFrom (id + kind.size) rest)

/-- The symbolic values of entities. -/
def symbols (kinds : List EntityKind) : Result (List Multivector) := symbolsFrom 0 kinds

/-- The written forms of the leaves of entities. -/
def symbolDisplays (kinds : List EntityKind) : List String :=
  kinds.mapIdx fun index kind => kind.name ++ "#" ++ toString index

/-- The plan that is kept for lowered formulas over kinds of entities. -/
def find? (planner : Planner) (codes : List Code) (kinds : List EntityKind) : Option Plan :=
  (planner.plans.find? fun entry => entry.codes = codes && entry.kinds = kinds).map (·.plan)

/-- The plan of lowered formulas over kinds of entities. -/
def build (planner : Planner) (codes : List Code) (kinds : List EntityKind) : Result Plan := do
  let leaves ← symbols kinds
  Plan.ofProgram planner.algebra leaves (inputSize kinds) (Program.ofCodes planner.eliminate codes)

/-- The plan of formulas over kinds of entities, and the planner that keeps it. -/
def compile (planner : Planner) (roots : List Expr) (kinds : List EntityKind) :
    Result (Plan × Planner) := do
  let codes ← roots.mapM Expr.lower
  match planner.find? codes kinds with
  | some plan => return (plan, planner)
  | none =>
    let plan ← planner.build codes kinds
    return (plan, { planner with plans := planner.plans ++ [⟨codes, kinds, plan⟩] })

/-- The symbolic value of a formula over kinds of entities. -/
def reduce (planner : Planner) (root : Expr) (kinds : List EntityKind) : Result Multivector := do
  root.reduce planner.algebra (← symbols kinds)

end Planner

end Clifford
