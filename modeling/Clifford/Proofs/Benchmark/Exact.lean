import Clifford.Proofs.Benchmark.Symbolic
import Clifford.Proofs.Plan.SingleRow
import Clifford.Proofs.Planner.Cache
import Clifford.Proofs.RowWise

/-! Exact benchmarks: in rational arithmetic the plans of the formulas give their closed forms. -/

namespace Clifford

open Finsupp
open MvPolynomial (X)

/-- What the instructions of a program do, without their fingerprints. These are hashes, which the plan of
a program does not need. -/
def Program.actions (p : Program) : List (Rat × Action) := p.instructions.map fun i => (i.scale, i.action)

/-- Runs one action with a multiplier. -/
def Machine.act (A : Algebra) (leaves : List Multivector) (m : Machine) (a : Rat × Action) :
    Result Machine := m.step A leaves ⟨0, a.1, a.2⟩

/-- The fingerprints of instructions play no part in a run. -/
theorem Machine.run_eq_actions (A : Algebra) (leaves : List Multivector) (m : Machine) (p : Program) :
    m.run A leaves p.instructions = p.actions.foldlM (act A leaves) m := by
  rw [Program.actions, List.foldlM_map]
  rfl

namespace Planner

variable {A : Algebra} {eliminate : Bool} {planner : Planner} {roots : List Expr}
  {kinds : List EntityKind} {leaves : List Multivector} {k l : EntityKind} {a b : Multivector}

/-- The symbolic values of two entities. -/
theorem symbols_pair (first : k.leaf 0 = .ok a) (second : l.leaf k.size = .ok b) :
    symbols [k, l] = .ok [a, b] := by
  rw [symbols, symbolsFrom, first, Result.ok_bind, Nat.zero_add, symbolsFrom, second]
  rfl

/-- A planner gives the plan that the actions of the compiled formulas record. -/
theorem Faithful.exists_compile (faithful : planner.Faithful A eliminate) {count : Nat}
    {actions : List (Rat × Action)} {m : Machine} (named : symbols kinds = .ok leaves)
    (compiled : (Program.compile eliminate roots).toOption.map (fun p => (p.outputCount, p.actions)) =
      some (count, actions))
    (run : actions.foldlM (Machine.act A leaves) (.start (inputSize kinds)) = .ok m)
    (full : m.stack.length = count) :
    ∃ next, planner.compile roots kinds =
      .ok (⟨m.steps, m.stack.reverse, inputSize kinds, m.nextId⟩, next) := by
  -- A compiled program gives its actions, and the plan depends on nothing else of it.
  cases made : Program.compile eliminate roots with
  | error cause => simp [made, Except.toOption] at compiled
  | ok program =>
    obtain ⟨codes, lowered, done⟩ := Result.bind_eq_ok.mp made
    obtain rfl := Except.ok.inj done
    simp only [made, Except.toOption, Option.map_some, Option.some.injEq, Prod.mk.injEq] at compiled
    obtain ⟨rfl, rfl⟩ := compiled
    have plan : (planner.compile roots kinds).map Prod.fst =
        .ok ⟨m.steps, m.stack.reverse, inputSize kinds, m.nextId⟩ := by
      -- What a planner keeps from earlier calls is what it would build again.
      rw [faithful.compile_eq, lowered, Result.ok_bind, build, named, Result.ok_bind, Plan.ofProgram,
        Machine.run_eq_actions, run, Result.ok_bind, if_pos full]
      rfl
    obtain ⟨⟨p, next⟩, given, same⟩ := Result.map_eq_ok.mp plan
    exact ⟨next, same ▸ given⟩

end Planner

namespace Multivector

variable {a : Multivector}

/-- One changes nothing as a multiplier. -/
@[simp] theorem scale_one (a : Multivector) : a.scale 1 = .ok a := if_pos rfl

/-- Strictly increasing blades that are all scalar are at most one. -/
theorem elements_of_scalar (ordered : a.elements.Pairwise (· < ·))
    (scalar : ∀ e ∈ a.elements, e = 0) : a.elements = [] ∨ a.elements = [0] := by
  generalize a.elements = elements at ordered scalar ⊢
  -- Two elements would be the same blade, and in strict order.
  match elements with
  | [] => exact .inl rfl
  | [e] => exact .inr (by rw [scalar e (by simp)])
  | e :: f :: rest =>
    have less : e < f := (List.pairwise_cons.mp ordered).1 f (by simp)
    rw [scalar e (by simp), scalar f (by simp)] at less
    exact absurd less (lt_irrefl 0)

end Multivector

/-- The exterior product of two leaves. -/
def wedgeActions : List (Rat × Action) :=
  [(1, .operand 1), (1, .perform (.input 0)), (1, .operand 1), (1, .perform (.input 1)),
    (1, .perform (.variadic .wedge 2))]

/-- A multiple of the scalar product of two leaves. -/
def scalarProductActions (q : Rat) : List (Rat × Action) :=
  [(1, .perform (.input 0)), (1, .perform (.input 1)), (1, .perform (.binary .inner)),
    (q, .perform (.component 0))]

/-- A root that is stored in a temporary and read again. -/
def rootActions : List (Rat × Action) := [(1, .perform (.unary .sqrt)), (1, .store), (1, .load 0)]

section Runs

variable {A : Algebra} {l r c s d root : Multivector} {id : Nat}

/-- A run of the exterior product leaves its value. -/
theorem run_wedge (product : A.wedge l r = .ok c) :
    wedgeActions.foldlM (Machine.act A [l, r]) (.start id) = .ok ⟨[c], [], [], id⟩ := by
  -- Every instruction is carried out once.
  simp [wedgeActions, Machine.act, Machine.step, Machine.perform, Machine.push, Machine.start,
    Machine.popOperands, Machine.available, VariadicOp.apply, VariadicOp.combine, product]

/-- A run of a multiple of the scalar product leaves its value. -/
theorem run_scalarProduct (product : A.scalarProduct l r = .ok s) {q : Rat} (scaled : s.scale q = .ok d) :
    (scalarProductActions q).foldlM (Machine.act A [l, r]) (.start id) = .ok ⟨[d], [], [], id⟩ := by
  obtain ⟨p, inner, part⟩ := Result.bind_eq_ok.mp product
  -- The multiplier goes with the projection onto the scalar, which is the last instruction.
  simp [scalarProductActions, Machine.act, Machine.step, Machine.perform, Machine.push, Machine.start,
    Machine.pop, BinaryOp.apply, inner, part, scaled]

/-- A run of a root leaves a fresh indeterminate for it. -/
theorem run_root (deferred : d.withOp .sqrt = .ok root) (scalar : root.elements = [0]) :
    rootActions.foldlM (Machine.act A [l, r]) ⟨[d], [], [], id⟩ =
      .ok ⟨[.fresh id [0]], [.fresh id [0]], [.value id root], id + 1⟩ := by
  -- The store leaves a reference to its value, which has the one blade of the value.
  have stored : root.reference id = .ok (.fresh id [0]) := by
    rw [Multivector.reference, scalar, Multivector.ofElements_eq_fresh (List.pairwise_singleton _ _)]
  have width : root.terms.length = 1 := by
    rw [← List.length_map (·.element)]
    exact congrArg List.length scalar
  simp [rootActions, Machine.act, Machine.step, Machine.perform, Machine.push, Machine.pop, Machine.store,
    RotorFunction.ofUnaryOp?, UnaryOp.apply, deferred, stored, width]

end Runs

namespace Benchmark

/-- Whether common subexpressions are eliminated or not, every planner of an algebra has a plan for the
formula of a benchmark. In exact arithmetic this plan has one output on single rows of numbers for the
fields, and the output is read as a number. -/
def Computes (b : Benchmark) (A : Algebra) (x y : List Rat) (read : NumericMultivector Rat → Tensor Rat)
    (number : (Deferred → Rat → Rat) → Rat) : Prop :=
  ∀ (eliminate : Bool) (planner : Planner), planner.Reachable A eliminate →
    ∃ p next, planner.compile [b.formula] b.inputs = .ok (p, next) ∧
      ∀ others deferred function, ∃ out,
        p.evaluate (.exact A.dim others deferred function) [⟨[x.length], x⟩, ⟨[y.length], y⟩] =
          .ok [out] ∧ read out = ⟨[], [number deferred]⟩

/-- What the instructions of a compiled benchmark do, with the number of their outputs. -/
def actions (b : Benchmark) (eliminate : Bool) : Option (Nat × List (Rat × Action)) :=
  (b.program eliminate).toOption.map fun p => (p.outputCount, p.actions)

/-- The incidence is an exterior product. -/
theorem actions_incidence (eliminate : Bool) :
    planePointIncidence.actions eliminate = some (1, wedgeActions) := by
  -- Compiling is computed, with elimination and without.
  cases eliminate <;> decide +kernel

/-- The power is a scalar product. -/
theorem actions_power (eliminate : Bool) :
    spherePointPower.actions eliminate = some (1, scalarProductActions 1) := by
  cases eliminate <;> decide +kernel

/-- The distance is the root of a multiple of a scalar product. -/
theorem actions_distance (eliminate : Bool) :
    pointDistance.actions eliminate = some (1, scalarProductActions (-2) ++ rootActions) := by
  cases eliminate <;> decide +kernel

variable {A : Algebra}

/-- The plan of the incidence gives the value of the equation of the plane at the point. -/
theorem computes_incidence (made : planePointIncidence.algebra = .ok A) (a b c d x y z : Rat) :
    planePointIncidence.Computes A [a, b, c, d] [x, y, z] (fun out => (out.select 0b1111).map (- ·))
      fun _ => a * x + b * y + c * z + d := by
  intro eliminate planner reachable
  -- The fields of the plane have the ids 0 to 3, and those of the point the next ones.
  obtain ⟨l, r, m, left, right, product, has⟩ := exists_incidence made 0 4
  obtain ⟨next, compiled⟩ := reachable.faithful.exists_compile (Planner.symbols_pair left right)
    (actions_incidence eliminate) (run_wedge product) rfl
  refine ⟨_, next, compiled, fun others deferred function => ?_⟩
  obtain ⟨out, evaluated, select⟩ := Plan.exists_output (x := [a, b, c, d]) (y := [x, y, z]) has rfl
    (by decide) others deferred function
  refine ⟨out, evaluated, ?_⟩
  show (out.select 0b1111).map (- ·) = _
  -- The pseudoscalar has the negated value, which the reading negates again.
  rw [select, single_eq_same]
  simp [Tensor.map, fieldNumbers]

/-- The plan of the power gives half of what the squared radius exceeds the squared distance by. -/
theorem computes_power (made : Algebra.conformal 3 = .ok A) (a b c r x y z : Rat) :
    spherePointPower.Computes A [a, b, c, r] [x, y, z] (·.select 0)
      fun _ => (r ^ 2 - ((x - a) ^ 2 + (y - b) ^ 2 + (z - c) ^ 2)) / 2 := by
  intro eliminate planner reachable
  -- The fields of the sphere have the ids 0 to 3, and those of the point the next ones.
  obtain ⟨sphere, point, s, left, right, product, has⟩ := exists_power made 0 4
  obtain ⟨next, compiled⟩ := reachable.faithful.exists_compile (Planner.symbols_pair left right)
    (actions_power eliminate) (run_scalarProduct product s.scale_one) rfl
  refine ⟨_, next, compiled, fun others deferred function => ?_⟩
  obtain ⟨out, evaluated, select⟩ := Plan.exists_output (x := [a, b, c, r]) (y := [x, y, z]) has rfl
    (by decide) others deferred function
  refine ⟨out, evaluated, ?_⟩
  show out.select 0 = _
  rw [select, single_eq_same]
  simp [fieldNumbers, MvPolynomial.smul_eval]
  ring

/-- The plan of the distance gives the root of the square of the distance. -/
theorem computes_distance (made : Algebra.conformal 3 = .ok A) (a b c x y z : Rat) :
    pointDistance.Computes A [a, b, c] [x, y, z] (·.select 0)
      fun deferred => deferred .sqrt ((a - x) ^ 2 + (b - y) ^ 2 + (c - z) ^ 2) := by
  intro eliminate planner reachable
  -- The fields of the points have the ids 0 to 2 and 3 to 5.
  obtain ⟨p, q, s, d, left, right, product, scaled, scalar, has⟩ := exists_squaredDistance made 0 3
  have blades : d.elements = [0] := by
    refine (Multivector.elements_of_scalar has.inSpace.canonical.ordered scalar).resolve_left fun none => ?_
    -- Points that differ in a coordinate have a distance.
    have vanishes := has.read_assigned (fun id => if id = 0 then 1 else 0) 0
    rw [Reading.read_of_absent _ (by rw [none]; exact List.not_mem_nil), single_eq_same] at vanishes
    simp at vanishes
  -- The root is taken after the scalar product, of what this leaves on the stack.
  have run : (scalarProductActions (-2) ++ rootActions).foldlM (Machine.act A [p, q]) (.start 6) =
      .ok ⟨[.fresh 6 [0]], [.fresh 6 [0]], [.value 6 { terms := d.terms, op := .sqrt }], 7⟩ := by
    rw [List.foldlM_append, run_scalarProduct product scaled, Result.ok_bind,
      run_root (Multivector.withOp_eq_ok.mpr ⟨has.isPlain, .inr ⟨blades, rfl⟩⟩) blades]
  obtain ⟨next, compiled⟩ := reachable.faithful.exists_compile (Planner.symbols_pair left right)
    (actions_distance eliminate) run rfl
  refine ⟨_, next, compiled, fun others deferred function => ?_⟩
  obtain ⟨out, evaluated, select⟩ := Plan.exists_root (x := [a, b, c]) (y := [x, y, z]) has blades rfl
    (by decide) others deferred function
  refine ⟨out, evaluated, ?_⟩
  show out.select 0 = _
  rw [select, single_eq_same]
  simp [fieldNumbers]

/-- The formulas of benchmarks agree with their closed forms. Over leaves at any two ids, the incidence of a
plane and a point reduces to minus the value of the equation of the plane on the pseudoscalar, the power of
a point to half of what the squared radius exceeds the squared distance to the center by, and what the
distance of two points takes the root of to the squared distance. In exact arithmetic the plans of the
formulas give these numbers for all fields. -/
theorem formulas_exact :
    (∃ A, planePointIncidence.algebra = .ok A ∧
      (∀ i j, ∃ l r c, EntityKind.plane.leaf i = .ok l ∧ EntityKind.projectivePoint.leaf j = .ok r ∧
        planePointIncidence.formula.reduce A [l, r] = .ok c ∧
        c.HasValue A.dim 3 (max (i + 4) (j + 3)) (single 0b1111
          (-(X i * X j + X (i + 1) * X (j + 1) + X (i + 2) * X (j + 2) + X (i + 3))))) ∧
      ∀ a b c d x y z, planePointIncidence.Computes A [a, b, c, d] [x, y, z]
        (fun out => (out.select 0b1111).map (- ·)) fun _ => a * x + b * y + c * z + d) ∧
    (∃ A, spherePointPower.algebra = .ok A ∧
      (∀ i j, ∃ l r s, EntityKind.sphere.leaf i = .ok l ∧ EntityKind.conformalPoint.leaf j = .ok r ∧
        spherePointPower.formula.reduce A [l, r] = .ok s ∧
        s.HasValue A.dim 5 (max (i + 4) (j + 3)) (single 0 ((1 / 2 : Rat) • (X (i + 3) ^ 2 -
          ((X i - X j) ^ 2 + (X (i + 1) - X (j + 1)) ^ 2 + (X (i + 2) - X (j + 2)) ^ 2))))) ∧
      ∀ a b c r x y z, spherePointPower.Computes A [a, b, c, r] [x, y, z] (·.select 0)
        fun _ => (r ^ 2 - ((x - a) ^ 2 + (y - b) ^ 2 + (z - c) ^ 2)) / 2) ∧
    ∃ A, pointDistance.algebra = .ok A ∧
      (∀ i j, ∃ l r d root, EntityKind.conformalPoint.leaf i = .ok l ∧
        EntityKind.conformalPoint.leaf j = .ok r ∧
        Expr.reduce A [l, r] (.scaled (-2) (.scalarProduct (.leaf 0) (.leaf 1))) = .ok d ∧
        d.HasValue A.dim 5 (max (i + 3) (j + 3)) (single 0 ((X i - X j) ^ 2 +
          (X (i + 1) - X (j + 1)) ^ 2 + (X (i + 2) - X (j + 2)) ^ 2)) ∧
        d.withOp .sqrt = .ok root ∧ pointDistance.formula.reduce A [l, r] = .ok root) ∧
      ∀ a b c x y z, pointDistance.Computes A [a, b, c] [x, y, z] (·.select 0)
        fun deferred => deferred .sqrt ((a - x) ^ 2 + (b - y) ^ 2 + (c - z) ^ 2) := by
  -- Each benchmark has the value over leaves at any ids, and the plan for leaves at the first ids.
  obtain ⟨P, projective⟩ : ∃ A, planePointIncidence.algebra = .ok A := ⟨_, rfl⟩
  obtain ⟨C, conformal⟩ : ∃ A, Algebra.conformal 3 = .ok A := ⟨_, rfl⟩
  refine ⟨⟨P, projective, fun i j => ?_, computes_incidence projective⟩,
    ⟨C, conformal, fun i j => ?_, computes_power conformal⟩,
    ⟨C, conformal, fun i j => ?_, computes_distance conformal⟩⟩
  · obtain ⟨l, r, c, left, right, product, has⟩ := exists_incidence projective i j
    exact ⟨l, r, c, left, right, (reduce_wedge P l r).trans product, has⟩
  · obtain ⟨l, r, s, left, right, product, has⟩ := exists_power conformal i j
    exact ⟨l, r, s, left, right, (reduce_scalarProduct C l r).trans product, has⟩
  · obtain ⟨l, r, s, d, left, right, product, scaled, scalar, has⟩ := exists_squaredDistance conformal i j
    have argument : Expr.reduce C [l, r] (.scaled (-2) (.scalarProduct (.leaf 0) (.leaf 1))) = .ok d := by
      rw [Expr.reduce, reduce_scalarProduct, product, Result.ok_bind, scaled]
    -- Over equal ids the distance is zero, whose root is known.
    obtain ⟨root, deferred⟩ : ∃ root, d.withOp .sqrt = .ok root := by
      rcases Multivector.elements_of_scalar has.inSpace.canonical.ordered scalar with none | one
      · exact ⟨_, Multivector.withOp_eq_ok.mpr ⟨has.isPlain, .inl ⟨none, rfl⟩⟩⟩
      · exact ⟨_, Multivector.withOp_eq_ok.mpr ⟨has.isPlain, .inr ⟨one, rfl⟩⟩⟩
    refine ⟨l, r, d, root, left, right, argument, has, deferred, ?_⟩
    rw [formula, Expr.reduce, argument, Result.ok_bind]
    exact deferred

/-- The equation of the plane x + 2y + 3z + 4 = 0 has the value 42 at the point (5, 6, 7). -/
theorem formulas_exact_plane :
    ∃ A p next out, planePointIncidence.algebra = .ok A ∧
      Planner.compile { algebra := A, eliminate := true } [planePointIncidence.formula]
        planePointIncidence.inputs = .ok (p, next) ∧
      p.evaluate (.exact A.dim 0 (fun _ q => q) fun _ rows => .ok rows)
        [⟨[4], [1, 2, 3, 4]⟩, ⟨[3], [5, 6, 7]⟩] = .ok [out] ∧
      (out.select 0b1111).map (- ·) = ⟨[], [42]⟩ := by
  obtain ⟨⟨A, made, -, computes⟩, -⟩ := formulas_exact
  obtain ⟨p, next, compiled, evaluates⟩ := computes 1 2 3 4 5 6 7 true _ .start
  obtain ⟨out, evaluated, value⟩ := evaluates 0 (fun _ q => q) fun _ rows => .ok rows
  exact ⟨A, p, next, out, made, compiled, evaluated, value.trans (by norm_num)⟩

end Benchmark

end Clifford
