import Clifford.Proofs.Code.Lowering
import Clifford.Proofs.Plan.Meaning
import Clifford.Proofs.Planner.Leaves

/-! Compilation preserves meaning: the plan of formulas gives, on numbers for the inputs, the
coefficients that their operators compute one by one. -/

namespace Clifford

namespace Planner

/-- The planners that compilations lead to from one without plans. -/
inductive Reachable (A : Algebra) (eliminate : Bool) : Planner → Prop
  | start : Reachable A eliminate { algebra := A, eliminate }
  | compile {planner next : Planner} {roots : List Expr} {kinds : List EntityKind} {p : Plan} :
    Reachable A eliminate planner → planner.compile roots kinds = .ok (p, next) →
      Reachable A eliminate next

/-- A planner whose kept plans are those that it would build again. -/
structure Faithful (A : Algebra) (eliminate : Bool) (planner : Planner) : Prop where
  algebra : planner.algebra = A
  eliminates : planner.eliminate = eliminate
  kept : ∀ entry ∈ planner.plans, planner.build entry.codes entry.kinds = .ok entry.plan

variable {A : Algebra} {eliminate : Bool} {planner next : Planner} {roots : List Expr}
  {kinds : List EntityKind} {p : Plan}

/-- A plan that is found is the one of the first entry with the formulas and the kinds of entities. -/
theorem entry_of_find? {codes : List Code} (found : planner.find? codes kinds = some p) :
    (planner.plans.find? fun entry => entry.codes = codes && entry.kinds = kinds) =
      some ⟨codes, kinds, p⟩ := by
  -- The entry that is found has the formulas and the kinds that are looked for.
  obtain ⟨⟨codes', kinds', p'⟩, first, rfl⟩ := Option.map_eq_some_iff.mp found
  obtain ⟨rfl, rfl⟩ : codes' = codes ∧ kinds' = kinds := by simpa using List.find?_some first
  exact first

/-- A compilation finds a plan that is kept, or adds one that it builds. -/
theorem compile_eq_ok (made : planner.compile roots kinds = .ok (p, next)) :
    ∃ codes, roots.mapM Expr.lower = .ok codes ∧
      (planner.find? codes kinds = some p ∧ next = planner ∨
        planner.find? codes kinds = none ∧ planner.build codes kinds = .ok p ∧
          next = { planner with plans := planner.plans ++ [⟨codes, kinds, p⟩] }) := by
  -- The plan is looked up by the lowered formulas.
  obtain ⟨codes, lowered, rest⟩ := Result.bind_eq_ok.mp made
  refine ⟨codes, lowered, ?_⟩
  cases found : planner.find? codes kinds with
  | some plan =>
    rw [found] at rest
    cases rest
    exact .inl ⟨rfl, rfl⟩
  | none =>
    rw [found] at rest
    obtain ⟨plan, built, done⟩ := Result.bind_eq_ok.mp rest
    cases done
    exact .inr ⟨rfl, built, rfl⟩

/-- Lowered formulas without a plan get the one that is built of them, or fail as that does. -/
theorem compile_of_absent {codes : List Code} (lowered : roots.mapM Expr.lower = .ok codes)
    (absent : planner.find? codes kinds = none) :
    planner.compile roots kinds = planner.build codes kinds >>= fun plan =>
      .ok (plan, { planner with plans := planner.plans ++ [⟨codes, kinds, plan⟩] }) := by
  rw [Planner.compile, lowered, Result.ok_bind, absent]
  rfl

/-- A plan that is found is the one that would be built. -/
theorem Faithful.built (faithful : planner.Faithful A eliminate) {codes : List Code}
    (found : planner.find? codes kinds = some p) : planner.build codes kinds = .ok p :=
  faithful.kept _ (List.mem_of_find?_eq_some (entry_of_find? found))

/-- A compilation gives the plan that is built from lowered formulas, whether it was kept or not. -/
theorem Faithful.compile (faithful : planner.Faithful A eliminate)
    (made : planner.compile roots kinds = .ok (p, next)) : next.Faithful A eliminate ∧
      ∃ codes, roots.mapM Expr.lower = .ok codes ∧ planner.build codes kinds = .ok p := by
  obtain ⟨codes, lowered, ⟨found, rfl⟩ | ⟨-, built, rfl⟩⟩ := compile_eq_ok made
  · exact ⟨faithful, codes, lowered, faithful.built found⟩
  · refine ⟨⟨faithful.algebra, faithful.eliminates, fun entry inside => ?_⟩, codes, lowered, built⟩
    -- The plans that are kept play no part in building.
    rcases List.mem_append.mp inside with before | new
    · exact faithful.kept entry before
    · obtain rfl := List.mem_singleton.mp new
      exact built

/-- Every planner that compilations lead to keeps the plans that it builds. -/
theorem Reachable.faithful (reachable : planner.Reachable A eliminate) :
    planner.Faithful A eliminate := by
  -- A planner without plans is faithful, and every compilation keeps this.
  induction reachable with
  | start => exact ⟨rfl, rfl, by simp⟩
  | compile _ made ih => exact (ih.compile made).1

/-- The coefficients of leaves for numbers that their ids stand for. -/
def leafValues (dim : Nat) (symbols : List Multivector) (numbers : List Rat) (index : Nat) :
    Option Dense := do (← symbols[index]?).leafValue dim fun id => numbers.getD id 0

end Planner

variable {A : Algebra} {symbols : List Multivector} {numbers : List Rat} {roots : List Expr}

/-- The plan of a program of formulas gives their coefficients. -/
theorem Plan.gives_of_lower (diagonal : A.metric.isDiagonal = true) {F : Functions A.dim}
    (exact : Expr.areExact roots = true) {xs : List Dense}
    (given : Expr.values A F (Planner.leafValues A.dim symbols numbers) roots = some xs)
    (unit : ∀ a ∈ symbols, a.IsUnitLeaf numbers.length) {eliminate : Bool} {codes : List Code}
    (lowered : roots.mapM Expr.lower = .ok codes) {p : Plan}
    (made : Plan.ofProgram A symbols numbers.length (Program.ofCodes eliminate codes) = .ok p) :
    p.Gives F numbers xs := by
  -- Lowering keeps the coefficients, and the plan gives those of the code.
  have computed := Code.values_eq_some.mpr (Expr.value_lower diagonal lowered exact given)
  refine Plan.gives_ofProgram diagonal computed (fun found value => ?_) made
  rw [Planner.leafValues, found, Option.bind_eq_bind, Option.bind_some] at value
  have leaf := unit _ (List.mem_of_getElem? found)
  exact ⟨leaf.denotes value, leaf.units⟩

/-- The constant and the linear part of the series of a function. -/
def RotorFunction.linear (dim : Nat) (function : RotorFunction) (x : Dense) : Dense := fun b =>
  if b = 0 then if function = .exp then 1 else 0
  else if b < dim ∧ function.reaches b then x b else 0

/-- The linear part of an exponential is one at zero. -/
theorem RotorFunction.linear_exp_zero (dim : Nat) :
    RotorFunction.exp.linear dim 0 = Dense.onBlade 0 1 := by
  -- Only the constant part is left at zero.
  funext b
  simp [linear, Dense.onBlade]

/-- Linear parts lie on the blades that the functions reach. -/
theorem RotorFunction.reaches_linear {dim : Nat} (nonempty : 0 < dim) {function : RotorFunction}
    {x : Dense} {b : Nat} (nonzero : function.linear dim x b ≠ 0) :
    b < dim ∧ function.reaches b := by
  rw [linear] at nonzero
  -- A coefficient belongs to the scalar blade or to one that is reached.
  split at nonzero
  · -- Only an exponential has a scalar part.
    rename_i scalar
    subst scalar
    have exponential : function = .exp := by
      by_contra other
      simp [other] at nonzero
    subst exponential
    exact ⟨nonempty, by decide +kernel⟩
  · split at nonzero
    · assumption
    · exact absurd rfl nonzero

/-- The functions cut off behind the linear parts of their series. -/
def Functions.linear (dim : Nat) (nonempty : 0 < dim) : Functions dim where
  number op q := some (if op = .cos then 1 else q)
  rotor function x := some (function.linear dim x)
  number_zero _ _ := rfl
  exp_zero := congrArg some (RotorFunction.linear_exp_zero dim)
  rotor_reaches _ _ _ _ value _ nonzero :=
    RotorFunction.reaches_linear nonempty (Option.some.inj value ▸ nonzero)

/-- Compilation preserves meaning over a diagonal metric, for any functions without a polynomial form
and whether common subexpressions are eliminated or not: on numbers for the inputs for which the
formulas are defined, every plan that is made of exact formulas runs, and its outputs have the
coefficients of the formulas. The plan may be made of leaves of any form with unit coefficients and
natural degrees, or by a planner for kinds of entities with such leaves. -/
theorem Planner.compile_gives (diagonal : A.metric.isDiagonal = true) (F : Functions A.dim)
    (exact : Expr.areExact roots = true) {xs : List Dense}
    (given : Expr.values A F (leafValues A.dim symbols numbers) roots = some xs) (eliminate : Bool) :
    ((∀ a ∈ symbols, a.IsUnitLeaf numbers.length) → ∀ codes p, roots.mapM Expr.lower = .ok codes →
      Plan.ofProgram A symbols numbers.length (Program.ofCodes eliminate codes) = .ok p →
        p.Gives F numbers xs) ∧
    ∀ (planner next : Planner) kinds p, planner.Reachable A eliminate →
      (∀ kind ∈ kinds, kind.WellFormed) → inputSize kinds = numbers.length →
      Planner.symbols kinds = .ok symbols → (∀ a ∈ symbols, a.HasUnits ∧ a.HasNaturalDegrees) →
      planner.compile roots kinds = .ok (p, next) → p.Gives F numbers xs := by
  refine ⟨fun unit codes p lowered made => Plan.gives_of_lower diagonal exact given unit lowered made,
    fun planner next kinds p reachable wellFormed count named unit compiled => ?_⟩
  -- The planner builds its plan over the symbolic values of the kinds, which are leaves of this form.
  have faithful := reachable.faithful
  obtain ⟨-, codes, lowered, built⟩ := faithful.compile compiled
  obtain ⟨leaves, named', made⟩ := Result.bind_eq_ok.mp built
  obtain rfl : symbols = leaves := Except.ok.inj (named.symm.trans named')
  rw [faithful.algebra, faithful.eliminates, count] at made
  refine Plan.gives_of_lower diagonal exact given (fun a inside => ?_) lowered made
  obtain ⟨canonical, plain, ids⟩ := symbolsFrom_spec wellFormed named a inside
  obtain ⟨units, degrees⟩ := unit a inside
  exact ⟨canonical, plain, units, degrees, by rwa [Nat.zero_add, count] at ids⟩

/-- An exponential and a quotient of two vectors of the plane share the bivector that they are made
of. -/
theorem Planner.compile_gives_quotient :
    let A : Algebra := { metric := .diagonal ⟨2, 0, 0, by decide⟩ }
    let kinds : List EntityKind := List.replicate 2 (.custom "Pair" ["x", "y"] [1, 2])
    let symbols : List Multivector := [.fresh 0 [1, 2], .fresh 2 [1, 2]]
    let blade := Expr.wedge (.leaf 0) (.leaf 1)
    let roots := [.unary .exp blade, .binary .divide blade (.binary .inner (.leaf 0) (.leaf 1))]
    let planner : Planner := { algebra := A }
    ∃ (F : Functions A.dim) (xs : List Dense) (p : Plan) (next : Planner),
      Planner.symbols kinds = .ok symbols ∧ planner.compile roots kinds = .ok (p, next) ∧
        Expr.values A F (leafValues A.dim symbols [1, 2, 3, 4]) roots = some xs ∧
        p.Gives F [1, 2, 3, 4] xs := by
  intro A kinds symbols blade roots planner
  -- With linear functions the formulas are defined at the numbers.
  let F : Functions A.dim := .linear A.dim (by decide)
  let codes : List Code :=
    let operands := [.leaf (.input 0) 1, .leaf (.input 1) 1]
    let blade := .node (.variadic .wedge 2) 1 operands
    [.node (.unary .exp) 1 [blade],
      .node (.binary .divide) 1 [blade, .node (.binary .inner) 1 operands]]
  let instructions : List Instruction := [.operand 1, ⟨1536578643, 1, .perform (.input 0)⟩,
    .operand 1, ⟨747726021, 1, .perform (.input 1)⟩, ⟨2609824753, 1, .perform (.variadic .wedge 2)⟩,
    .store, ⟨2609824753, 1, .load 0⟩, ⟨775020785, 1, .perform (.unary .exp)⟩, .store,
    ⟨1536578643, 1, .perform (.input 0)⟩, ⟨747726021, 1, .perform (.input 1)⟩,
    ⟨1276973731, 1, .perform (.binary .inner)⟩, .store, ⟨2609824753, 1, .load 0⟩,
    ⟨1276973731, 1, .load 2⟩, ⟨1772330260, 1, .perform (.binary .divide)⟩, .store,
    ⟨775020785, 1, .load 1⟩, ⟨1772330260, 1, .load 3⟩]
  have named : Planner.symbols kinds = .ok symbols := by decide_cbv
  have lowered : roots.mapM Expr.lower = .ok codes := by decide +kernel
  have program : Program.ofCodes true codes = ⟨instructions, 4, 2⟩ := by
    rw [Program.ofCodes, Program.mk.injEq]
    decide +kernel
  -- That the plan is built and the formulas are defined is evaluated.
  have runs : (Plan.ofProgram A symbols 4 ⟨instructions, 4, 2⟩).toBool = true := by decide_cbv
  have defined : (Expr.values A F (leafValues A.dim symbols [1, 2, 3, 4]) roots).isSome = true := by
    decide +kernel
  obtain ⟨xs, given⟩ := Option.isSome_iff_exists.mp defined
  cases made : Plan.ofProgram A symbols 4 ⟨instructions, 4, 2⟩ with
  | error e =>
    rw [made] at runs
    cases runs
  | ok p =>
    have built : planner.build codes kinds = .ok p := by
      rw [Planner.build, named, Result.ok_bind, ← made, program]
      rfl
    have compiled : planner.compile roots kinds =
        .ok (p, { planner with plans := [⟨codes, kinds, p⟩] }) := by
      rw [Planner.compile_of_absent lowered rfl, built]
      rfl
    have unit : ∀ a ∈ symbols, a.HasUnits ∧ a.HasNaturalDegrees := by
      intro a inside
      rcases List.mem_pair.mp inside with rfl | rfl
      all_goals exact ⟨Multivector.hasUnits_fresh, Multivector.hasNaturalDegrees_fresh⟩
    exact ⟨F, xs, p, _, named, compiled, given,
      (Planner.compile_gives rfl F (by decide +kernel) given true).2 planner _ kinds p .start
        (by decide) rfl named unit compiled⟩

end Clifford
