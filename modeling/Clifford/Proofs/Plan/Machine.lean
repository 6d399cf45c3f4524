import Clifford.Plan.Machine
import Clifford.Proofs.Code.Value
import Clifford.Proofs.Plan.Exact
import Clifford.Proofs.Plan.Operation

/-! What a machine computes: its stack and its temporaries denote the coefficients of code at the
assignment that its steps give to their ids. -/

namespace Clifford.Machine

variable (A : Algebra) (F : Functions A.dim) (leaves : Nat → Option Dense)
  (symbols : List Multivector) (inputs : Values (Option Rat))

/-- The values of a machine at an assignment to the ids up to the next one: the stack denotes some
vectors, every temporary what a stem computes, the leaves theirs, and the steps run to the
assignment. Divisors can only be temporaries and leaves, so that these have unit coefficients. -/
structure Computes (ρ : Nat → Rat) (m : Machine) (stored : List Code) (xs : List Dense) : Prop where
  stack : List.Forall₂ (Multivector.Denotes F ρ m.nextId) m.stack xs
  temporaries : List.Forall₂ (fun a stem => ∃ y, stem.value A F leaves = some y ∧
    a.Denotes F ρ m.nextId y ∧ a.HasUnits) m.temporaries stored
  leaf : ∀ {index a x}, symbols[index]? = some a → leaves index = some x →
    a.Denotes F ρ m.nextId x ∧ a.HasUnits
  steps : ∃ values, m.steps.foldlM (F.interpretation.step 1) inputs = .ok values ∧
    values.Assigns ρ m.nextId

/-- The value on top of the stack has unit coefficients. -/
def TopHasUnits (m : Machine) : Prop := ∀ top ∈ m.stack.head?, top.HasUnits

variable {A F leaves symbols inputs} {ρ : Nat → Rat} {m m' : Machine} {stored : List Code}
  {xs ys : List Dense} {x y : Dense}

/-- A step that gives numbers to the ids that follow is recorded. -/
theorem Computes.record (computes : m.Computes A F leaves symbols inputs ρ stored xs)
    {step : Step} {numbers : List Rat} {width : Nat} (runs : ∀ {values : Values (Option Rat)},
      values.Assigns ρ m.nextId → ∃ later, F.interpretation.step 1 values step = .ok later ∧
        later.Assigns (extendFrom ρ m.nextId numbers) (m.nextId + width)) :
    Computes A F leaves symbols inputs (extendFrom ρ m.nextId numbers)
      { m with steps := m.steps ++ [step], nextId := m.nextId + width } stored xs where
  -- What has been computed before only looks at the ids up to here.
  stack := computes.stack.imp fun a x denotes =>
    denotes.congr extendFrom_below (Nat.le_add_right _ _)
  temporaries := computes.temporaries.imp fun a stem ⟨y, value, denotes, units⟩ =>
    ⟨y, value, denotes.congr extendFrom_below (Nat.le_add_right _ _), units⟩
  leaf found given :=
    have before := computes.leaf found given
    ⟨before.1.congr extendFrom_below (Nat.le_add_right _ _), before.2⟩
  steps := by
    obtain ⟨values, run, assigns⟩ := computes.steps
    obtain ⟨later, step, extended⟩ := runs assigns
    refine ⟨later, ?_, extended⟩
    rw [List.foldlM_append, run, Result.ok_bind, List.foldlM_cons, step]
    rfl

/-- The top of the stack is taken off. -/
theorem Computes.pop (computes : m.Computes A F leaves symbols inputs ρ stored (x :: xs))
    {a : Multivector} (popped : m.pop = .ok (a, m')) :
    m'.Computes A F leaves symbols inputs ρ stored xs ∧ a.Denotes F ρ m'.nextId x ∧
      m.stack.head? = some a := by
  -- Only the stack changes, which denotes one vector less.
  obtain ⟨stack, temporaries, steps, nextId⟩ := m
  obtain ⟨_ | ⟨first, rest⟩, temporaries, leaf, steps⟩ := computes
  cases popped
  exact ⟨⟨rest, temporaries, leaf, steps⟩, first, rfl⟩

/-- A function that is computed on dense multivectors denotes its result. -/
theorem Computes.applyFunction (computes : m.Computes A F leaves symbols inputs ρ stored xs)
    {arg result : Multivector} (denotes : arg.Denotes F ρ m.nextId x) {function : RotorFunction}
    (value : F.rotor function x = some y)
    (made : m.applyFunction A function arg = .ok (result, m')) :
    ∃ ρ', m'.Computes A F leaves symbols inputs ρ' stored xs ∧ result.Denotes F ρ' m'.nextId y := by
  -- The argument is accepted, and then looked at.
  obtain ⟨u, required, rest⟩ := Result.bind_eq_ok.mp made
  split at rest
  · rename_i zero
    cases rest
    -- Only an exponential takes zero as its argument, and its value there is one.
    obtain rfl : x = 0 := by
      funext blade
      refine denotes.absent ?_
      rw [Multivector.elements, List.isEmpty_iff.mp zero]
      simp
    cases function with
    | exp =>
      obtain rfl := Option.some.inj (F.exp_zero.symm.trans value)
      exact ⟨ρ, computes, .basis A.dim_pos (.one 0)⟩
    | log =>
      rw [RotorFunction.requireArgument, zero] at required
      split at required <;> cases required
  · obtain ⟨block, made, done⟩ := Result.bind_eq_ok.mp rest
    rw [function.block_eq] at made
    cases made
    cases done
    -- The blades that the function reaches have an id each, which the step assigns.
    have increasing := function.pairwise_blades A.dim
    have inside : ∀ e ∈ function.blades A.dim, e < A.dim := fun e member =>
      List.mem_range.mp (List.mem_of_mem_filter member)
    have width : (Multivector.fresh m.nextId (function.blades A.dim)).terms.length =
        (function.blades A.dim).length := by
      rw [← List.length_map (·.element), ← Multivector.elements, Multivector.elements_fresh]
    rw [width, Multivector.elements_fresh]
    refine ⟨_, computes.record fun assigns => assigns.step_block denotes value inside, ?_⟩
    refine .fresh increasing inside le_rfl (fun b => RotorFunction.reached denotes required value)
      fun k small => ?_
    rw [extendFrom_add k (by simpa using small), List.getElem_map]

/-- The top of the stack becomes a temporary for the stem that it denotes the coefficients of. -/
theorem Computes.store (computes : m.Computes A F leaves symbols inputs ρ stored (x :: xs))
    {stem : Code} (value : stem.value A F leaves = some x) (made : m.store = .ok m') :
    ∃ ρ', m'.Computes A F leaves symbols inputs ρ' (stored ++ [stem]) xs := by
  obtain ⟨⟨a, before⟩, popped, rest⟩ := Result.bind_eq_ok.mp made
  obtain ⟨computes, denotes, -⟩ := computes.pop popped
  obtain ⟨reference, created, done⟩ := Result.bind_eq_ok.mp rest
  cases done
  have increasing := denotes.inSpace.canonical.ordered
  have named := @Multivector.ofElements_eq_fresh before.nextId _ increasing
  cases named.symm.trans created
  -- Every term has an id of its own, which the step assigns the coefficient of the term.
  have width : a.elements.length = a.terms.length := List.length_map _
  have recorded := computes.record fun assigns => width ▸ assigns.step_value denotes
  have fresh : (Multivector.fresh before.nextId a.elements).Denotes F
      (extendFrom ρ before.nextId (a.elements.map x)) (before.nextId + a.terms.length) x := by
    refine .fresh increasing (fun e => denotes.element_lt) ?_ (fun b nonzero => ?_) fun k small => ?_
    · simp [Multivector.elements]
    · by_contra missing
      exact nonzero (denotes.absent missing)
    · rw [extendFrom_add k (by simpa using small), List.getElem_map]
  exact ⟨_, recorded.stack, List.rel_append recorded.temporaries
    (.cons ⟨x, value, fresh, Multivector.hasUnits_fresh⟩ .nil), recorded.leaf, recorded.steps⟩

end Clifford.Machine
