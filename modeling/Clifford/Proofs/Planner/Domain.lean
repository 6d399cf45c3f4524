import Clifford.Proofs.Code.Lowering
import Clifford.Proofs.Plan.Domain
import Clifford.Proofs.Planner.Leaves

/-! Domains of formulas: a plan over entities is refused for the blades of an operand, or for a divisor
that is an entity with a polynomial of its own. -/

namespace Clifford

namespace EntityKind

variable {kind : EntityKind} {id : Nat} {a : Multivector}

/-- The entries of a conformal point are short, and none of them is a scalar. -/
theorem conformalEntries_spec (id : Nat) :
    ∀ e ∈ conformalEntries id, e.monomial.powers.length ≤ 1 ∧ e.element ≠ 0 := by
  -- Each entry lies on a vector or on one of the two null vectors.
  simp [conformalEntries, Entry.of, originBlade, infinityBlade]

/-- The symbolic value of an entity with distinct blades is atomic, if the entity does not choose another
polynomial. -/
theorem leaf_atomic (distinct : kind.elements.Nodup) (unchosen : kind.chosen = [])
    (made : kind.leaf id = .ok a) : a.Atomic := by
  -- Without the scalar blade there is nothing that a quotient would look at.
  have nonscalar {es : List Entry}
      (each : ∀ e ∈ es, e.monomial.powers.length ≤ 1 ∧ e.element ≠ 0)
      (collated : collate es = .ok a) : a.Atomic :=
    Multivector.atomic_collate (fun e inside => (each e inside).1)
      (fun e inside _ _ scalar => absurd scalar (each e inside).2) collated
  cases kind with
  | projectivePoint => exact nonscalar (by simp [Entry.of, pointWeight]) made
  | conformalPoint => exact nonscalar (conformalEntries_spec id) made
  | sphere =>
    refine nonscalar (fun e inside => ?_) made
    rcases List.mem_append.mp inside with point | radius
    · exact conformalEntries_spec id e point
    · obtain rfl := List.mem_singleton.mp radius
      exact ⟨le_rfl, by simp [Entry.of, infinityBlade]⟩
  | flatPoint => exact nonscalar (by simp [Entry.of, originBlade, infinityBlade, elements]) made
  | polynomial name fields elements entries =>
    -- No entries of its own are left, so that there is nothing at all.
    obtain rfl : entries = [] := unchosen
    exact nonscalar (by simp) made
  | scalar | vector | bivector | rotor | plane | line | custom =>
    refine Multivector.atomic_collate (fun e inside => ?_)
      (fun e inside f inside' scalar scalar' => ?_) made
    · obtain ⟨k, -, rfl⟩ := List.mem_mapIdx.mp inside
      exact le_rfl
    · -- The scalar blade belongs to one field.
      obtain ⟨k, small, rfl⟩ := List.mem_mapIdx.mp inside
      obtain ⟨l, small', rfl⟩ := List.mem_mapIdx.mp inside'
      obtain rfl : k = l := (distinct.getElem_inj_iff).mp (scalar.trans scalar'.symm)
      rfl

end EntityKind

namespace Planner

/-- The symbolic values of entities keep what an entity promises. -/
theorem symbolsFrom_isLeaf {kinds : List EntityKind} {id : Nat} {leaves : List Multivector}
    (wellFormed : ∀ kind ∈ kinds, kind.WellFormed) (named : symbolsFrom id kinds = .ok leaves) :
    ∀ a ∈ leaves, a.IsLeaf := by
  intro a inside
  obtain ⟨canonical, plain, -⟩ := symbolsFrom_spec wellFormed named a inside
  exact ⟨canonical, plain⟩

/-- The symbolic values of entities with distinct blades are atomic, if no entity chooses another
polynomial. -/
theorem symbolsFrom_atomic {kinds : List EntityKind} : ∀ {id : Nat} {leaves : List Multivector},
    (∀ kind ∈ kinds, kind.elements.Nodup ∧ kind.chosen = []) → symbolsFrom id kinds = .ok leaves →
      ∀ a ∈ leaves, a.Atomic := by
  -- The leaves are made one after the other, each from its own ids on.
  induction kinds with
  | nil =>
    intro id leaves _ made
    cases made
    simp
  | cons kind rest ih =>
    intro id leaves fields made
    obtain ⟨first, leaf, later⟩ := Result.bind_eq_ok.mp made
    obtain ⟨others, below, done⟩ := Result.bind_eq_ok.mp later
    cases done
    obtain ⟨⟨distinct, unchosen⟩, fields⟩ := List.forall_mem_cons.mp fields
    exact List.forall_mem_cons.mpr ⟨EntityKind.leaf_atomic distinct unchosen leaf, ih fields below⟩

end Planner

namespace Program

variable {A : Algebra} {eliminate : Bool} {roots : List Expr} {leaves : List Multivector} {p : Program}

/-- A compiled formula only fails outside the domain of an operator, or for a leaf that it divides by. No
operation meets a function that is still deferred. What is refused is the exponential of anything but a
bivector, the logarithm of zero or of anything odd, a function of anything but a scalar, and a quotient
by anything but a scalar, or by a leaf that is a scalar without being a single monomial with at most one
indeterminate. Entities with distinct blades, all of which are indeterminates of their own, have no such
leaf. -/
theorem compile_refuses (contract : ∀ a ∈ leaves, a.IsLeaf) (compiled : compile eliminate roots = .ok p)
    (id : Nat) :
    let start := Machine.start id
    (∀ before i after m head, p.instructions = before ++ i :: after →
      start.run A leaves before = .ok m → i.action = .perform head →
        ∀ a ∈ m.stack, a.isPlain = true) ∧
    (∀ refusal, Plan.ofProgram A leaves id p = .error (.domain refusal) →
      ∃ before i after m head, p.instructions = before ++ i :: after ∧
        start.run A leaves before = .ok m ∧ i.action = .perform head ∧
          (Refused head m.stack refusal ∨ RefusedLeaf leaves before head m.stack refusal)) ∧
    ∀ kinds, (∀ kind ∈ kinds, kind.elements.Nodup ∧ kind.chosen = []) →
      Planner.symbols kinds = .ok leaves → ∀ before head stack refusal,
        ¬ RefusedLeaf leaves before head stack refusal := by
  intro start
  obtain ⟨codes, lowered, done⟩ := Result.bind_eq_ok.mp compiled
  cases done
  -- What stands alone is stored before anything else is done with it.
  have isolated : ∀ before i after, (ofCodes eliminate codes).instructions = before ++ i :: after →
      Code.Isolated before i after :=
    fun _ _ _ => isolated_ofCodes eliminate (Expr.wellFormed_of_lower lowered)
  refine ⟨fun before i after m head split run performs =>
    (Machine.perform_of_run contract isolated split run performs).1, fun refusal failed => ?_,
    fun kinds fields named before head stack refusal =>
      not_refusedLeaf (Planner.symbolsFrom_atomic fields named)⟩
  -- A machine that runs to its end fails by the number of outputs alone, which is no refusal.
  rcases Result.bind_eq_error.mp failed with run | ⟨m, -, rest⟩
  · obtain ⟨before, i, after, m, split, ran, step⟩ := Machine.exists_of_run_error run
    obtain ⟨head, performs, refused⟩ := Machine.step_refuses (fun head performs =>
      (Machine.perform_of_run contract isolated split ran performs).2) step
    exact ⟨before, i, after, m, head, split, ran, performs, refused⟩
  · split at rest
    · cases rest
    · cases rest

/-- The exponential of the root of a number times a vector of a plane is refused, although the root is
below a product and that below the exponential: it is the vector that the exponential is not defined
on. -/
theorem compile_refuses_vector :
    let A : Algebra := { metric := .diagonal ⟨2, 0, 0, by decide⟩ }
    let kinds : List EntityKind := [.scalar, .custom "Pair" ["x", "y"] [1, 2]]
    let roots := [.unary .exp (.binary .geometric (.unary .sqrt (.leaf 0)) (.leaf 1))]
    ∃ p leaves, compile true roots = .ok p ∧ Planner.symbols kinds = .ok leaves ∧
      (∀ a ∈ leaves, a.IsLeaf) ∧
      Plan.ofProgram A leaves 3 p = .error (.domain (.expElements [1, 2])) ∧
      ∃ before i after m head, p.instructions = before ++ i :: after ∧
        (Machine.start 3).run A leaves before = .ok m ∧ i.action = .perform head ∧
          Refused head m.stack (.expElements [1, 2]) := by
  intro A kinds roots
  let codes : List Code := [.node (.unary .exp) 1 [.node (.binary .geometric) 1
    [.node (.unary .sqrt) 1 [.leaf (.input 0) 1], .leaf (.input 1) 1]]]
  have lowered : roots.mapM Expr.lower = .ok codes := by decide +kernel
  have named : Planner.symbols kinds = .ok [.fresh 0 [0], .fresh 1 [1, 2]] := by decide_cbv
  -- The root is stored, and so is the product that the exponential is taken of.
  have program : ofCodes true codes =
      ⟨[⟨1536578643, 1, .perform (.input 0)⟩, ⟨2601316524, 1, .perform (.unary .sqrt)⟩, .store,
        ⟨2601316524, 1, .load 0⟩, ⟨747726021, 1, .perform (.input 1)⟩,
        ⟨893554941, 1, .perform (.binary .geometric)⟩, .store, ⟨893554941, 1, .load 1⟩,
        ⟨2760338505, 1, .perform (.unary .exp)⟩, .store, ⟨2760338505, 1, .load 2⟩], 3, 1⟩ := by
    rw [ofCodes, Program.mk.injEq]
    decide +kernel
  have compiled : compile true roots = .ok (ofCodes true codes) := by
    rw [compile, lowered]
    rfl
  -- The product of the root and the vector is not a bivector.
  have failed : Plan.ofProgram A [.fresh 0 [0], .fresh 1 [1, 2]] 3 (ofCodes true codes) =
      .error (.domain (.expElements [1, 2])) := by
    rw [program]
    decide_cbv
  have contract := Planner.symbolsFrom_isLeaf (by decide) named
  obtain ⟨-, refused, fields⟩ := compile_refuses (A := A) contract compiled 3
  obtain ⟨before, i, after, m, head, split, run, performs, blades | leaf⟩ := refused _ failed
  · exact ⟨_, _, compiled, named, contract, failed, before, i, after, m, head, split, run, performs, blades⟩
  · -- Both entities have an indeterminate for each field.
    exact absurd leaf (fields kinds (by decide) named _ _ _ _)

/-- A vector of a plane divided by an entity with the value `x + y` is refused, although nothing but the
scalar blade of the divisor is stored: the entity is not stored as a temporary of its own. -/
theorem compile_refuses_sum :
    let A : Algebra := { metric := .diagonal ⟨2, 0, 0, by decide⟩ }
    let kinds : List EntityKind := [.custom "Pair" ["x", "y"] [1, 2],
      .polynomial "Sum" ["x", "y"] [0, 3] [.of 0 1 [.linear 0], .of 0 1 [.linear 1]]]
    (∀ kind ∈ kinds, kind.elements.Nodup ∧ kind.WellFormed) ∧ ∃ p leaves refusal,
      compile true [.binary .divide (.leaf 0) (.leaf 1)] = .ok p ∧ Planner.symbols kinds = .ok leaves ∧
      Plan.ofProgram A leaves (Planner.inputSize kinds) p = .error (.domain refusal) ∧
      ∀ before i after m head, p.instructions = before ++ i :: after →
        (Machine.start (Planner.inputSize kinds)).run A leaves before = .ok m →
          i.action = .perform head → ∀ other, ¬ Refused head m.stack other := by
  intro A kinds
  let codes : List Code := [.node (.binary .divide) 1 [.leaf (.input 0) 1, .leaf (.input 1) 1]]
  let sum : Multivector := { terms := [⟨0, [⟨1, [.linear 2]⟩, ⟨1, [.linear 3]⟩]⟩] }
  have lowered : [Expr.binary .divide (.leaf 0) (.leaf 1)].mapM Expr.lower = .ok codes := by
    decide +kernel
  have named : Planner.symbols kinds = .ok [.fresh 0 [1, 2], sum] := by decide_cbv
  have program : ofCodes true codes =
      ⟨[⟨1536578643, 1, .perform (.input 0)⟩, ⟨747726021, 1, .perform (.input 1)⟩,
        ⟨4120326734, 1, .perform (.binary .divide)⟩, .store, ⟨4120326734, 1, .load 0⟩], 1, 1⟩ := by
    rw [ofCodes, Program.mk.injEq]
    decide +kernel
  have compiled : compile true [.binary .divide (.leaf 0) (.leaf 1)] = .ok (ofCodes true codes) := by
    rw [compile, lowered]
    rfl
  have failed : Plan.ofProgram A [.fresh 0 [1, 2], sum] 4 (ofCodes true codes) =
      .error (.domain (.notScalarMonomial sum.display)) := by
    rw [program]
    decide_cbv
  refine ⟨by decide, _, _, _, compiled, named, failed, fun before i after m head split run performs
    other refused => ?_⟩
  rw [program] at split
  have reached : (Machine.start 4).run A [.fresh 0 [1, 2], sum]
      [⟨1536578643, 1, .perform (.input 0)⟩, ⟨747726021, 1, .perform (.input 1)⟩] =
        .ok ⟨[sum, .fresh 0 [1, 2]], [], [], 4⟩ := by rfl
  -- Of the five instructions, only the quotient has something to refuse.
  rcases before with _ | ⟨_, _ | ⟨_, _ | ⟨_, _ | ⟨_, _ | ⟨_, _⟩⟩⟩⟩⟩ <;>
    simp only [List.nil_append, List.cons_append, List.cons.injEq] at split
  · obtain ⟨rfl, -⟩ := split
    cases performs
    cases refused
  · obtain ⟨-, rfl, -⟩ := split
    cases performs
    cases refused
  · obtain ⟨rfl, rfl, rfl, -⟩ := split
    cases performs
    obtain rfl := Except.ok.inj (reached.symm.trans run)
    cases refused with
    | divide nonscalar =>
      obtain ⟨e, inside, other⟩ := nonscalar
      exact other (List.mem_singleton.mp inside)
  · obtain ⟨-, -, -, rfl, -⟩ := split
    cases performs
  · obtain ⟨-, -, -, -, rfl, -⟩ := split
    cases performs
  · obtain ⟨-, -, -, -, -, rest⟩ := split
    simp at rest

end Program

end Clifford
