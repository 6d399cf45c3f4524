import Clifford.Proofs.Plan.Numbering
import Clifford.Proofs.Planner.Acceptance

/-! The numbering of compiled plans: the leaves have the ids of their fields, the steps the ids that
follow, and every id has a value before it is read. -/

namespace Clifford

/-- Powers of ids from one on. -/
def PowersFrom (id : Nat) (ps : List Power) : Prop := ∀ p ∈ ps, id ≤ p.id

namespace EntityKind

variable {kind : EntityKind} {id : Nat} {a : Multivector}

/-- Fresh indeterminates take ids from one on. -/
theorem powersFrom_fields (elements : List Nat) : PowersIn (PowersFrom id)
    (elements.mapIdx fun k element => Entry.of element 1 [Power.linear (id + k)]) := by
  intro e inside p power
  -- The id of a blade is as far from the first one as its place.
  obtain ⟨k, small, rfl⟩ := List.mem_mapIdx.mp inside
  obtain rfl := List.mem_singleton.mp power
  exact Nat.le_add_right _ _

/-- The null vector of a point takes ids from one on. -/
theorem powersFrom_conformalEntries : PowersIn (PowersFrom id) (conformalEntries id) := by
  -- All of its powers are listed.
  simp [PowersIn, PowersFrom, conformalEntries, Entry.of, Power.linear]

/-- A leaf takes ids from one on. -/
theorem leaf_powersFrom (made : kind.leaf id = .ok a) : PowersIn (PowersFrom id) a.entries := by
  -- Collation keeps the powers of its entries.
  cases kind with
  | projectivePoint => exact powersIn_collate (by simp [PowersIn, PowersFrom, Entry.of, Power.linear]) made
  | conformalPoint => exact powersIn_collate powersFrom_conformalEntries made
  | sphere =>
    refine powersIn_collate (fun e inside => ?_) made
    rcases List.mem_append.mp inside with point | radius
    · exact powersFrom_conformalEntries e point
    · obtain rfl := List.mem_singleton.mp radius
      simp [PowersFrom, Entry.of]
  | flatPoint =>
    refine powersIn_collate (List.forall_mem_cons.mpr ⟨by simp [PowersFrom, Entry.of], ?_⟩) made
    exact powersFrom_fields _
  | polynomial =>
    refine powersIn_collate (fun e inside p power => ?_) made
    obtain ⟨given, -, rfl⟩ := List.mem_map.mp inside
    obtain ⟨p, -, rfl⟩ := List.mem_map.mp power
    exact Nat.le_add_right _ _
  | _ => exact powersIn_collate (powersFrom_fields _) made

/-- A leaf has the ids of its fields. -/
theorem leaf_ids (wellFormed : kind.WellFormed) (made : kind.leaf id = .ok a) :
    ∀ i ∈ a.ids, i ∈ List.range' id kind.size := by
  intro i used
  obtain ⟨e, entry, p, power, rfl⟩ := Multivector.mem_ids.mp used
  -- The bound from above holds of canonical entries, which collate to the same leaf.
  obtain ⟨entries, collated, each⟩ := leaf_eq_collate wellFormed id
  rw [collated] at made
  have below := Multivector.hasIdsBelow_collate (fun f inside => (each f inside).2) made e entry p power
  rw [← collated] at made
  exact List.mem_range'_1.mpr ⟨leaf_powersFrom made e entry p power, below⟩

end EntityKind

namespace Planner

/-- The ids of the fields of entities, from one on. -/
def fieldIds (id : Nat) : List EntityKind → List (List Nat)
  | [] => []
  | kind :: rest => List.range' id kind.size :: fieldIds (id + kind.size) rest

/-- The ids of fields are consecutive. -/
theorem flatten_fieldIds (kinds : List EntityKind) :
    ∀ id, (fieldIds id kinds).flatten = List.range' id (inputSize kinds) := by
  -- The intervals of the entities meet.
  induction kinds with
  | nil => exact fun _ => rfl
  | cons kind rest ih =>
    intro id
    rw [fieldIds, List.flatten_cons, ih, inputSize, List.range'_append_1]

/-- Every leaf has the ids of the fields of its entity. -/
theorem symbolsFrom_ids {kinds : List EntityKind} : ∀ {id : Nat} {leaves : List Multivector},
    (∀ kind ∈ kinds, kind.WellFormed) → symbolsFrom id kinds = .ok leaves →
      List.Forall₂ (fun a ids => ∀ i ∈ a.ids, i ∈ ids) leaves (fieldIds id kinds) := by
  -- The leaves are made one after the other, each from its own ids on.
  induction kinds with
  | nil =>
    intro id leaves _ made
    cases made
    exact .nil
  | cons kind rest ih =>
    intro id leaves wellFormed made
    obtain ⟨first, leaf, later⟩ := Result.bind_eq_ok.mp made
    obtain ⟨others, below, done⟩ := Result.bind_eq_ok.mp later
    cases done
    obtain ⟨own, wellFormed⟩ := List.forall_mem_cons.mp wellFormed
    exact .cons (EntityKind.leaf_ids own leaf) (ih wellFormed below)

variable {A : Algebra} {eliminate : Bool} {planner next : Planner} {roots : List Expr}
  {kinds : List EntityKind} {p : Plan}

/-- Compiled plans are well numbered, whatever they were compiled before. The leaves have the ids of
their fields, which are those from zero on up to the size of the inputs. The steps give values to the
ids that follow, one for each term or blade, and the steps and the outputs only read constants and ids
that have a value by then, so that an evaluation never reads an id without one. -/
theorem compile_numbered (reachable : planner.Reachable A eliminate)
    (wellFormed : ∀ kind ∈ kinds, kind.WellFormed)
    (compiled : planner.compile roots kinds = .ok (p, next)) :
    (∃ leaves, Planner.symbols kinds = .ok leaves ∧
      List.Forall₂ (fun a ids => ∀ id ∈ a.ids, id ∈ ids) leaves (fieldIds 0 kinds)) ∧
    (fieldIds 0 kinds).flatten = List.range p.inputSize ∧ p.Numbered ∧ p.ReadsKnown := by
  obtain ⟨-, codes, -, built⟩ := reachable.faithful.compile compiled
  obtain ⟨leaves, named, made⟩ := Result.bind_eq_ok.mp built
  -- The leaves only have ids of inputs, which have values from the start.
  have given : ∀ a ∈ leaves, a.Built (KnownPowers (inputSize kinds)) := by
    intro a inside
    obtain ⟨canonical, -, ids⟩ := symbolsFrom_spec wellFormed named a inside
    rw [Nat.zero_add] at ids
    exact ⟨canonical.ordered, fun e entry p power => .inr (.inr (ids e entry p power))⟩
  obtain ⟨size, numbered, reads⟩ := Plan.numbered_ofProgram given made
  refine ⟨⟨leaves, named, symbolsFrom_ids wellFormed named⟩, ?_, numbered, reads⟩
  rw [flatten_fieldIds, size, List.range_eq_range']

/-- The exponential of a wedge of two vectors of a plane has an id for the wedge, two for the
exponential and two more for the reference to it. -/
theorem compile_numbered_exponential :
    let A : Algebra := { metric := .diagonal ⟨2, 0, 0, by decide⟩ }
    let kinds : List EntityKind := List.replicate 2 (.custom "Pair" ["x", "y"] [1, 2])
    let roots := [.unary .exp (.wedge (.leaf 0) (.leaf 1))]
    (∀ kind ∈ kinds, kind.WellFormed) ∧ ∃ p next,
      Planner.compile { algebra := A } roots kinds = .ok (p, next) ∧
        (fieldIds 0 kinds).flatten = List.range p.inputSize ∧
        p.steps.flatMap Step.ids = [4, 5, 6, 7, 8] ∧ p.Numbered ∧ p.ReadsKnown := by
  intro A kinds roots
  let codes : List Code := [.node (.unary .exp) 1
    [.node (.variadic .wedge 2) 1 [.leaf (.input 0) 1, .leaf (.input 1) 1]]]
  have wellFormed : ∀ kind ∈ kinds, kind.WellFormed := by decide
  have lowered : roots.mapM Expr.lower = .ok codes := by decide +kernel
  have named : Planner.symbols kinds = .ok [.fresh 0 [1, 2], .fresh 2 [1, 2]] := by decide_cbv
  have program : Program.ofCodes true codes =
      ⟨[.operand 1, ⟨1536578643, 1, .perform (.input 0)⟩, .operand 1,
        ⟨747726021, 1, .perform (.input 1)⟩, ⟨2609824753, 1, .perform (.variadic .wedge 2)⟩, .store,
        ⟨2609824753, 1, .load 0⟩, ⟨775020785, 1, .perform (.unary .exp)⟩, .store,
        ⟨775020785, 1, .load 1⟩], 2, 1⟩ := by
    rw [Program.ofCodes, Program.mk.injEq]
    decide +kernel
  -- That the plan is built, with these ids, is evaluated.
  have planned : ((Planner.build { algebra := A } codes kinds).toOption.any fun p =>
      p.steps.flatMap Step.ids = [4, 5, 6, 7, 8]) = true := by
    rw [Planner.build, named, Result.ok_bind, program]
    decide_cbv
  cases built : Planner.build { algebra := A } codes kinds with
  | error cause =>
    rw [built] at planned
    cases planned
  | ok p =>
    rw [built] at planned
    have made : Planner.compile { algebra := A } roots kinds =
        .ok (p, { algebra := A, plans := [⟨codes, kinds, p⟩] }) := by
      rw [compile_of_absent lowered rfl, built]
      rfl
    -- The rest follows for every plan.
    obtain ⟨-, fields, numbered, reads⟩ := compile_numbered .start wellFormed made
    exact ⟨wellFormed, p, _, made, fields, of_decide_eq_true planned, numbered, reads⟩

end Planner

end Clifford
