import Clifford.Plan.Evaluate
import Clifford.Proofs.Plan.Built

/-! Numbering: the steps of a plan give values to consecutive ids, and only read ids that have one. -/

namespace Clifford

namespace Multivector

variable {a : Multivector} {id : Nat}

/-- An id is inserted. -/
theorem mem_insertId {x : Nat} {xs : List Nat} : id ∈ insertId x xs ↔ id = x ∨ id ∈ xs := by
  -- The id is put in front of the first greater one, unless it is there.
  induction xs with
  | nil => simp [insertId]
  | cons y ys ih =>
    rw [insertId]
    split
    · simp
    split
    · rw [List.mem_cons, ih, List.mem_cons]
      tauto
    · obtain rfl : x = y := by omega
      simp

/-- The ids in use are those of the powers of the entries. -/
theorem mem_ids : id ∈ a.ids ↔ ∃ e ∈ a.entries, ∃ p ∈ e.monomial.powers, p.id = id := by
  -- Ids are collected by insertion, which loses none and makes up none.
  have collected (xs : List Nat) : id ∈ xs.foldr insertId [] ↔ id ∈ xs := by
    induction xs with
    | nil => simp
    | cons x xs ih => rw [List.foldr_cons, mem_insertId, ih, List.mem_cons]
  rw [ids, collected]
  constructor
  · intro inside
    obtain ⟨p, power, rfl⟩ := List.mem_map.mp inside
    obtain ⟨m, monomial, given⟩ := List.mem_flatMap.mp power
    obtain ⟨t, term, row⟩ := List.mem_flatMap.mp monomial
    exact ⟨⟨t.element, m⟩, mem_entries term (List.mem_map_of_mem row), p, given, rfl⟩
  · rintro ⟨e, entry, p, given, rfl⟩
    obtain ⟨t, term, row⟩ := List.mem_flatMap.mp entry
    obtain ⟨m, monomial, rfl⟩ := List.mem_map.mp row
    exact List.mem_map_of_mem (List.mem_flatMap.mpr
      ⟨m, List.mem_flatMap.mpr ⟨t, term, monomial⟩, given⟩)

end Multivector

/-- An id stands for a constant, or lies below a bound. -/
def KnownBelow (bound id : Nat) : Prop := id = piId ∨ id = eId ∨ id < bound

/-- Powers of known ids. -/
def KnownPowers (bound : Nat) (ps : List Power) : Prop := ∀ p ∈ ps, KnownBelow bound p.id

/-- What is known below a bound is known below a greater one. -/
theorem KnownPowers.mono {bound bound' : Nat} (le : bound ≤ bound') {ps : List Power}
    (known : KnownPowers bound ps) : KnownPowers bound' ps := by
  -- Constants are known below any bound.
  intro p inside
  rcases known p inside with pi | e | below
  · exact .inl pi
  · exact .inr (.inl e)
  · exact .inr (.inr (below.trans_le le))

/-- A multivector that is built from known powers has known ids. -/
theorem Multivector.Built.known {a : Multivector} {bound : Nat} (built : a.Built (KnownPowers bound)) :
    ∀ id ∈ a.ids, KnownBelow bound id := by
  -- An id in use belongs to a power.
  intro id inside
  obtain ⟨e, entry, p, power, rfl⟩ := Multivector.mem_ids.mp inside
  exact built.powers e entry p power

namespace Step

/-- The multivector that a step computes, or that it applies a function to. -/
def argument : Step → Multivector
  | value _ a => a
  | block _ _ arg _ => arg

/-- The ids that a step gives values to. -/
def ids (s : Step) : List Nat := List.range' s.base s.width

/-- Steps that give values to consecutive ids from the first one on up to the next one, each of which
only reads constants and ids with a value. -/
inductive Numbered (first : Nat) : List Step → Nat → Prop
  | nil : Numbered first [] first
  | concat {steps : List Step} {s : Step} (before : Numbered first steps s.base)
      (argument : s.argument.Built (KnownPowers s.base)) :
      Numbered first (steps ++ [s]) (s.base + s.width)

variable {first next : Nat} {steps before after : List Step} {s : Step}

/-- The next id is as far from the first one as the steps are wide. -/
theorem Numbered.next_eq (numbered : Numbered first steps next) :
    next = first + (steps.map width).sum := by
  -- Every step starts where the one before it ends.
  induction numbered with
  | nil => simp
  | concat _ _ ih => rw [List.map_append, List.sum_append, ← Nat.add_assoc, ← ih]; simp

/-- The ids of the steps are those from the first one on up to the next one. -/
theorem Numbered.ids_eq (numbered : Numbered first steps next) :
    steps.flatMap ids = List.range' first (next - first) := by
  induction numbered with
  | nil => simp
  | @concat steps s before _ ih =>
    -- The interval of the steps before and that of the last one meet at its base.
    have le : first ≤ s.base := before.next_eq ▸ Nat.le_add_right _ _
    have last : s.base = first + (s.base - first) := by omega
    have width : s.base + s.width - first = (s.base - first) + s.width := by omega
    rw [List.flatMap_append, ih, List.flatMap_singleton, ids, width, ← List.range'_append_1, ← last]

/-- Every step follows on those before it. -/
theorem Numbered.split (numbered : Numbered first steps next) : ∀ {after},
    steps = before ++ s :: after →
      Numbered first before s.base ∧ s.argument.Built (KnownPowers s.base) := by
  induction numbered with
  | nil =>
    intro after split
    simp at split
  | @concat steps t numbered argument ih =>
    intro after split
    -- The step is the last one, or stands among those before.
    rcases after.eq_nil_or_concat with rfl | ⟨others, last, rfl⟩
    · obtain ⟨rfl, same⟩ := List.append_inj' split rfl
      obtain rfl := List.singleton_inj.mp same
      exact ⟨numbered, argument⟩
    · rw [List.concat_eq_append, ← List.cons_append, ← List.append_assoc] at split
      exact ih (List.append_inj' split rfl).1

end Step

/-- Every id below a bound has a value. -/
def Values.Covers {α : Type} (values : Values α) (bound : Nat) : Prop :=
  ∀ id < bound, ∃ column, values id = some column

section Evaluation

variable {κ α : Type} {I : Interpretation κ α} {count first next : Nat} {values values' : Values α}
  {s : Step} {steps : List Step}

/-- Columns for consecutive ids extend what is covered. -/
theorem Values.covers_assign {base width : Nat} {columns : List (List α)} (covers : values.Covers base)
    (length : columns.length = width) : (values.assign base columns).Covers (base + width) := by
  -- An id that follows has its column, and others keep theirs.
  intro id below
  rw [Values.assign]
  split
  · rename_i inside
    exact ⟨_, List.getElem?_eq_getElem inside.2⟩
  · exact covers id (by omega)

/-- A step gives values to its ids. -/
theorem Interpretation.covers_step (covers : values.Covers s.base)
    (made : I.step count values s = .ok values') : values'.Covers (s.base + s.width) := by
  -- A step computes a column for each of its ids.
  cases s with
  | value base a =>
    obtain ⟨columns, computed, done⟩ := Result.bind_eq_ok.mp made
    cases done
    exact Values.covers_assign covers (Result.mapM_eq_ok.mp computed).length_eq.symm
  | block base function arg elements =>
    obtain ⟨columns, -, rest⟩ := Result.bind_eq_ok.mp made
    obtain ⟨rows, -, done⟩ := Result.bind_eq_ok.mp rest
    cases done
    exact Values.covers_assign covers (List.length_map _)

/-- Numbered steps give values to all ids up to the next one. -/
theorem Interpretation.covers_steps {inputs : List (List α)} (inputSize : inputs.length = first)
    (numbered : Step.Numbered first steps next) : ∀ {values},
      steps.foldlM (I.step count) (Values.assign (fun _ => none) 0 inputs) = .ok values →
        values.Covers next := by
  induction numbered with
  | nil =>
    intro values made
    cases made
    have start : (Values.assign (fun _ => none) 0 inputs).Covers (0 + first) :=
      Values.covers_assign (by simp [Values.Covers]) inputSize
    rwa [Nat.zero_add] at start
  | concat _ _ ih =>
    intro values made
    -- The steps before give values to all ids up to the base of the last one.
    rw [List.foldlM_append] at made
    obtain ⟨before, run, last⟩ := Result.bind_eq_ok.mp made
    rw [List.foldlM_cons] at last
    obtain ⟨after, step, done⟩ := Result.bind_eq_ok.mp last
    cases done
    exact covers_step (ih run) step

end Evaluation

namespace Machine

/-- The values of a machine only have ids of inputs and of its steps, which are consecutive. -/
structure Numbered (first : Nat) (m : Machine) : Prop where
  built : m.Built (KnownPowers m.nextId)
  steps : Step.Numbered first m.steps m.nextId

variable {A : Algebra} {leaves : List Multivector} {m m' : Machine} {i : Instruction} {first : Nat}

/-- An instruction adds a step for a value on the stack, or no step at all. -/
theorem Stepped.steps (stepped : m.Stepped A leaves i m') :
    (m'.steps = m.steps ∧ m'.nextId = m.nextId) ∨ ∃ s, s.argument ∈ m.stack ∧ s.base = m.nextId ∧
      m'.steps = m.steps ++ [s] ∧ m'.nextId = s.base + s.width := by
  -- Only a store and the function of an argument add a step.
  cases stepped with
  | operand | load => exact .inl ⟨rfl, rfl⟩
  | perform performs performed scaled =>
    rcases performed.steps with same | ⟨function, arg, inside, -, steps, next⟩
    · exact .inl same
    · exact .inr ⟨.block _ function arg _, inside, rfl, steps, next⟩
  | @store a reference rest stores stack named =>
    exact .inr ⟨.value m.nextId a, by simp [Step.argument, stack], rfl, rfl, rfl⟩

/-- An instruction keeps a machine numbered. -/
theorem Numbered.step (numbered : m.Numbered first)
    (given : ∀ a ∈ leaves, a.Built (KnownPowers first)) (made : m.step A leaves i = .ok m') :
    m'.Numbered first := by
  -- The next id never decreases, so that what is known stays known.
  have stepped := stepped_of_ok made
  have le : first ≤ m.nextId := numbered.steps.next_eq ▸ Nat.le_add_right _ _
  have advance : m.nextId ≤ m'.nextId := by
    rcases stepped.steps with ⟨-, same⟩ | ⟨s, -, base, -, next⟩ <;> omega
  have single {id : Nat} (known : KnownBelow m'.nextId id) : KnownPowers m'.nextId [Power.linear id] :=
    List.forall_mem_singleton.mpr known
  refine ⟨stepped.built (powerClosed_ids _) (single (.inl rfl)) (single (.inr (.inl rfl)))
    (fun a inside => (given a inside).mono (KnownPowers.mono (le.trans advance)))
    (numbered.built.mono (KnownPowers.mono advance)) (fun id _ below => ?_), ?_⟩
  · -- What the instruction names lies below the next id.
    exact single (.inr (.inr below))
  · rcases stepped.steps with ⟨steps, same⟩ | ⟨s, inside, base, steps, next⟩
    · rw [steps, same]
      exact numbered.steps
    · rw [steps, next]
      exact .concat (base ▸ numbered.steps) (base ▸ numbered.built.stack _ inside)

/-- Instructions keep a machine numbered. -/
theorem Numbered.run (given : ∀ a ∈ leaves, a.Built (KnownPowers first)) {is : List Instruction}
    (numbered : m.Numbered first) (made : m.run A leaves is = .ok m') : m'.Numbered first :=
  holds_of_run (P := fun _ n => n.Numbered first) numbered
    (fun _ _ _ _ _ _ before step => before.step given step) made

end Machine

/-- The steps of a plan give values to consecutive ids behind those of the inputs, one for each term of
a value that is named and one for each blade of the result of a function; they and the outputs only
read constants and ids that have a value before, and the ids of a value that is named are those of
the reference to it, term by term. -/
structure Plan.Numbered (p : Plan) : Prop where
  le : p.inputSize ≤ p.idCount
  ids : p.steps.flatMap Step.ids = List.range' p.inputSize (p.idCount - p.inputSize)
  base : ∀ before s after, p.steps = before ++ s :: after →
    s.base = p.inputSize + (before.map Step.width).sum ∧ ∀ id ∈ s.argument.ids, KnownBelow s.base id
  outputs : ∀ a ∈ p.outputs, ∀ id ∈ a.ids, KnownBelow p.idCount id
  references : ∀ base a, Step.value base a ∈ p.steps → ∃ r, a.reference base = .ok r ∧
    r.terms.length = a.terms.length ∧ ∀ (k : Nat) (t : Term), a.terms[k]? = some t →
      r.terms[k]? = some ⟨t.element, [⟨1, [Power.linear (base + k)]⟩]⟩

/-- An id stands for a constant, or has a value. -/
def Values.Knows {α : Type} (values : Values α) (id : Nat) : Prop :=
  id = piId ∨ id = eId ∨ ∃ column, values id = some column

/-- Whatever the evaluation of a plan reads on columns for its inputs has a value by then. -/
def Plan.ReadsKnown (p : Plan) : Prop :=
  ∀ (κ α : Type) (I : Interpretation κ α) (count : Nat) (inputs : List (List α)),
    inputs.length = p.inputSize →
      (∀ before s after values, p.steps = before ++ s :: after →
        before.foldlM (I.step count) (Values.assign (fun _ => none) 0 inputs) = .ok values →
          ∀ id ∈ s.argument.ids, values.Knows id) ∧
      ∀ values, p.steps.foldlM (I.step count) (Values.assign (fun _ => none) 0 inputs) = .ok values →
        ∀ a ∈ p.outputs, ∀ id ∈ a.ids, values.Knows id

/-- The plan of a program over leaves whose ids are those of the inputs is numbered. -/
theorem Plan.numbered_ofProgram {A : Algebra} {leaves : List Multivector} {first : Nat} {p : Program}
    {plan : Plan} (given : ∀ a ∈ leaves, a.Built (KnownPowers first))
    (made : Plan.ofProgram A leaves first p = .ok plan) :
    plan.inputSize = first ∧ plan.Numbered ∧ plan.ReadsKnown := by
  obtain ⟨m, run, rest⟩ := Result.bind_eq_ok.mp made
  split at rest
  swap
  · cases rest
  cases rest
  -- Nothing has been named before the first instruction.
  have start : (Machine.start first).Numbered first :=
    ⟨⟨by simp [Machine.start], by simp [Machine.start]⟩, .nil⟩
  obtain ⟨built, steps⟩ := Machine.Numbered.run given start run
  have outputs : ∀ a ∈ m.stack.reverse, ∀ id ∈ a.ids, KnownBelow m.nextId id :=
    fun a inside => (built.stack a (List.mem_reverse.mp inside)).known
  refine ⟨rfl, ⟨steps.next_eq ▸ Nat.le_add_right _ _, steps.ids_eq, ?_, outputs, ?_⟩, ?_⟩
  · intro before s after split
    obtain ⟨numbered, argument⟩ := steps.split split
    exact ⟨numbered.next_eq, argument.known⟩
  · intro base a inside
    obtain ⟨before, after, split⟩ := List.append_of_mem inside
    obtain ⟨-, argument⟩ := steps.split split
    refine ⟨_, Multivector.ofElements_eq_fresh argument.ordered, ?_, fun k t found => ?_⟩
    · simp [Multivector.elements]
    · -- The reference has the blades of the value in the same order.
      have blade : a.elements[k]? = some t.element := by simp [Multivector.elements, found]
      simp [Multivector.fresh, blade]
  · intro κ α I count inputs size
    -- The ids below the base of a step are covered by the inputs and the steps before it.
    have knows {values : Values α} {bound id : Nat} (covers : values.Covers bound)
        (known : KnownBelow bound id) : values.Knows id :=
      known.imp_right fun other => other.imp_right (covers id)
    refine ⟨fun before s after values split run id used => ?_, fun values run a inside id used => ?_⟩
    · obtain ⟨numbered, argument⟩ := steps.split split
      exact knows (Interpretation.covers_steps size numbered run) (argument.known id used)
    · exact knows (Interpretation.covers_steps size steps run) (outputs a inside id used)

end Clifford
