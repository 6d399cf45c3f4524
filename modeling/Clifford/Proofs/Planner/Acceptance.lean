import Clifford.Proofs.Plan.Lockstep
import Clifford.Proofs.Planner.Meaning

/-! Elimination of common subexpressions and acceptance: formulas are accepted with it where they are
accepted without it, if it hides nothing inside divisors and arguments of transcendental functions. -/

namespace Clifford

namespace Machine

variable {A : Algebra} {symbols : List Multivector} {m : Machine} {shared : List Code}

/-- Outputs that hold what can be shared in them are pushed, unless one overflows. -/
theorem run_outputs_self (equal : Relabels A symbols Eq) {roots : List Code}
    (wellFormed : ∀ root ∈ roots, root.WellFormed)
    (inSpace : ∀ root ∈ roots, root.Every fun c => c.head.InSpace A.dim symbols.length)
    (held : ∀ root ∈ roots, ∀ s ∈ Code.candidates false root,
      HeldAlike A.dim Eq shared m.temporaries shared m.temporaries s) :
    m.run A symbols (roots.flatMap (Code.emit shared false)) = .error .quotientOverflow ∨
      ∃ as, as.length = roots.length ∧
        m.run A symbols (roots.flatMap (Code.emit shared false)) = .ok (m.pushed as) := by
  -- Each output finds the temporaries as they were, since it only adds a value on top.
  induction roots generalizing m with
  | nil => exact .inr ⟨[], rfl, rfl⟩
  | cons root rest ih =>
    obtain ⟨own, others⟩ := List.forall_mem_cons.mp wellFormed
    obtain ⟨space, spaces⟩ := List.forall_mem_cons.mp inSpace
    obtain ⟨first, later⟩ := List.forall_mem_cons.mp held
    rw [List.flatMap_cons, run_append]
    rcases (pushAlike_emit equal root false own space first).self rfl with overflow | ⟨a, -, pushed⟩
    · exact .inl (by rw [overflow, Result.error_bind])
    rw [pushed, Result.ok_bind]
    rcases ih (m := m.pushed [a]) others spaces later with overflow | ⟨as, count, run⟩
    · exact .inl overflow
    · exact .inr ⟨a :: as, by simp [count], by rw [run, pushed_append]; rfl⟩

end Machine

namespace Sharing

/-- Lowered formulas that elimination hides nothing in: their leaves and constants are those of a space,
their temporaries have room in front of the ids of constants, and nothing that is looked at before it is
used is shared for its repetition alone. -/
structure Transparent (A : Algebra) (leafCount inputSize : Nat) (codes : List Code) : Prop where
  inSpace : ∀ code ∈ codes, code.Every fun c => c.head.InSpace A.dim leafCount
  room : inputSize + 2 * A.dim * (classes codes).length ≤ constantBase
  shown : ∀ stem ∈ inspected codes, stem ∈ hoisted true codes → stem ∈ hoisted false codes

variable {A : Algebra} {symbols : List Multivector} {leafCount inputSize : Nat} {codes : List Code}

/-- What is shared without elimination is shared with it. -/
theorem hoisted_true_of_false {stem : Code} (member : stem ∈ hoisted false codes) :
    stem ∈ hoisted true codes := by
  -- What is required is shared either way.
  simp only [hoisted, List.mem_filter, Bool.false_and, Bool.or_false] at member ⊢
  exact ⟨member.1, by rw [member.2, Bool.true_or]⟩

/-- The stems of lowered formulas are shared by programs with and without elimination. -/
theorem Transparent.sharings {eliminate eliminate' : Bool}
    (transparent : Transparent A symbols.length inputSize codes)
    (wellFormed : ∀ code ∈ codes, code.WellFormed) {p q : Code → Bool}
    (first : hoisted eliminate codes = (classes codes).filter p)
    (second : hoisted eliminate' codes = (classes codes).filter q) :
    Machine.Sharings A symbols (classes codes) p q (· ∈ inspected codes) where
  nodup := nodup_classes codes
  ordered := postordered_classes codes
  stem c inside := by
    obtain ⟨root, -, member⟩ := mem_classes.mp inside
    exact Code.stem_of_candidate root false member
  wellFormed c inside := wellFormed_of_classes wellFormed inside
  inSpace c inside := by
    obtain ⟨root, given, member⟩ := mem_classes.mp inside
    exact Code.Every.of_candidate root false (transparent.inSpace root given) member
  -- Nodes that stand alone are shared by all programs.
  alone c inside alone := by
    have left : c ∈ hoisted eliminate codes := hoisted_of_standsAlone wellFormed inside alone
    have right : c ∈ hoisted eliminate' codes := hoisted_of_standsAlone wellFormed inside alone
    rw [first] at left
    rw [second] at right
    exact ⟨(List.mem_filter.mp left).2, (List.mem_filter.mp right).2⟩
  inspected c inside s member := List.mem_flatMap.mpr ⟨c, inside, member⟩
  below c near := inspected_below near
  agree c inside near := by
    -- Near stems are shared for being required, which does not depend on elimination.
    have agree (e e' : Bool) (member : c ∈ hoisted e codes) : c ∈ hoisted e' codes := by
      cases e <;> cases e'
      · exact member
      · exact hoisted_true_of_false member
      · exact transparent.shown c near member
      · exact member
    have same : c ∈ hoisted eliminate codes ↔ c ∈ hoisted eliminate' codes := ⟨agree _ _, agree _ _⟩
    rw [first, second, List.mem_filter, List.mem_filter] at same
    exact Bool.eq_iff_iff.mpr ⟨fun shared => (same.mp ⟨inside, shared⟩).2,
      fun shared => (same.mpr ⟨inside, shared⟩).2⟩

end Sharing

/-- Leaves in a space: plain multivectors on increasing blades of the space, with ids below a bound. -/
structure Multivector.IsLeafOf (dim inputSize : Nat) (a : Multivector) : Prop where
  bounded : ∀ e ∈ a.elements, e < dim
  ordered : a.elements.Pairwise (· < ·)
  plain : a.isPlain = true
  ids : a.HasIdsBelow inputSize

/-- The ids of inputs and of constants correspond to themselves. -/
theorem relabels_inputs {A : Algebra} {symbols : List Multivector} {inputSize : Nat}
    (leaves : ∀ a ∈ symbols, a.IsLeafOf A.dim inputSize) :
    Relabels A symbols fun i j => i = j ∧ (i < inputSize ∨ constantBase ≤ i) where
  keeps := fun i j k l first second => by rw [first.1, second.1]
  pi := ⟨rfl, .inr le_rfl⟩
  e := ⟨rfl, .inr (Nat.le_succ _)⟩
  leaf a inside :=
    have leaf := leaves a inside
    Multivector.renamed_self leaf.bounded leaf.ordered leaf.plain fun e member p power =>
      ⟨rfl, .inl (leaf.ids e member p power)⟩

/-- A program with other temporaries makes a plan where a program of the same code makes one, unless it
overflows. -/
theorem Plan.ofProgram_follows {A : Algebra} {symbols : List Multivector} {inputSize : Nat}
    {codes : List Code} (leaves : ∀ a ∈ symbols, a.IsLeafOf A.dim inputSize)
    (wellFormed : ∀ code ∈ codes, code.WellFormed)
    (transparent : Sharing.Transparent A symbols.length inputSize codes) {eliminate eliminate' : Bool}
    {plan' : Plan}
    (made : Plan.ofProgram A symbols inputSize (Program.ofCodes eliminate' codes) = .ok plan') :
    Plan.ofProgram A symbols inputSize (Program.ofCodes eliminate codes) = .error .quotientOverflow ∨
      ∃ plan, Plan.ofProgram A symbols inputSize (Program.ofCodes eliminate codes) = .ok plan := by
  obtain ⟨p, first⟩ : ∃ p, Sharing.hoisted eliminate codes = (Sharing.classes codes).filter p :=
    ⟨_, rfl⟩
  obtain ⟨q, second⟩ : ∃ q, Sharing.hoisted eliminate' codes = (Sharing.classes codes).filter q :=
    ⟨_, rfl⟩
  have sharings := transparent.sharings wellFormed first second
  have inputs := relabels_inputs leaves
  have equal : Relabels A symbols Eq :=
    ⟨keepsOrder_eq, rfl, rfl, fun a inside => (inputs.leaf a inside).self_left⟩
  -- Before the first stem the machines agree, as only ids of inputs and constants correspond.
  have start : Machine.Lockstep A symbols inputSize (Sharing.classes codes) p q
      (· ∈ Sharing.inspected codes) [] (fun i j => i = j ∧ (i < inputSize ∨ constantBase ≤ i))
      (.start inputSize) (.start inputSize) :=
    ⟨⟨rfl, rfl, by simp, le_rfl⟩, ⟨rfl, rfl, by simp, le_rfl⟩, inputs,
      fun i j related => related.2.imp (fun small => ⟨small, related.1 ▸ small⟩)
        fun large => ⟨related.1, large⟩, by simp⟩
  rw [Plan.ofProgram, Program.ofCodes, second, Machine.emitTemporaries_eq, Machine.run_append] at made
  rw [Plan.ofProgram, Program.ofCodes, first, Machine.emitTemporaries_eq, Machine.run_append]
  obtain ⟨r', run', -⟩ := Result.bind_eq_ok.mp made
  obtain ⟨s', temporaries', -⟩ := Result.bind_eq_ok.mp run'
  rcases start.run sharings equal transparent.room (List.nil_append _).symm temporaries' with
    overflow | ⟨r, rel, run, lockstep⟩
  · exact .inl (by rw [overflow]; rfl)
  -- Behind the temporaries each machine pushes its outputs by itself.
  have outputs := Machine.run_outputs_self equal wellFormed transparent.inSpace
    fun root given s below => lockstep.left.held s (Sharing.mem_classes.mpr ⟨root, given, below⟩)
  rcases outputs with overflow | ⟨as, count, pushed⟩
  · refine .inl ?_
    rw [run, Result.ok_bind, overflow]
    rfl
  · have depth : (r.pushed as).stack.length = codes.length := by
      simp [Machine.pushed, lockstep.left.stack, count]
    refine .inr ⟨⟨r.steps, (r.pushed as).stack.reverse, inputSize, r.nextId⟩, ?_⟩
    rw [run, Result.ok_bind, pushed, Result.ok_bind, if_pos depth]
    rfl

namespace Planner

variable {A : Algebra} {planner planner' : Planner} {roots : List Expr} {kinds : List EntityKind}

/-- There is a symbolic value for every entity. -/
theorem length_symbolsFrom : ∀ {kinds : List EntityKind} {id : Nat} {symbols : List Multivector},
    symbolsFrom id kinds = .ok symbols → symbols.length = kinds.length
  | [], id, symbols, made => by
    cases made
    rfl
  | kind :: rest, id, symbols, made => by
    obtain ⟨first, -, later⟩ := Result.bind_eq_ok.mp made
    obtain ⟨others, below, done⟩ := Result.bind_eq_ok.mp later
    cases done
    rw [List.length_cons, List.length_cons, length_symbolsFrom below]

/-- Lowered formulas are compiled, or fail as the plan that would be built of them. -/
theorem compile_or_error {codes : List Code} (lowered : roots.mapM Expr.lower = .ok codes) :
    (∃ made, planner.compile roots kinds = .ok made) ∨ ∃ cause,
      planner.build codes kinds = .error cause ∧ planner.compile roots kinds = .error cause := by
  -- A plan that is kept is found again, and any other one is built.
  cases found : planner.find? codes kinds with
  | some kept =>
    rw [Planner.compile, lowered, Result.ok_bind, found]
    exact .inl ⟨_, rfl⟩
  | none =>
    rw [compile_of_absent lowered found]
    cases planner.build codes kinds with
    | ok plan => exact .inl ⟨_, rfl⟩
    | error cause => exact .inr ⟨cause, rfl, rfl⟩

/-- Formulas over kinds of entities of an algebra, which elimination of common subexpressions hides
nothing in. -/
structure Transparent (A : Algebra) (roots : List Expr) (kinds : List EntityKind) : Prop where
  wellFormed : ∀ kind ∈ kinds, kind.WellFormed
  bounded : ∀ symbols, Planner.symbols kinds = .ok symbols → ∀ a ∈ symbols, ∀ e ∈ a.elements, e < A.dim
  codes : ∀ codes, roots.mapM Expr.lower = .ok codes →
    Sharing.Transparent A kinds.length (inputSize kinds) codes

/-- Where one planner compiles transparent formulas, so does another one, unless it overflows. -/
theorem compile_follows {eliminate eliminate' : Bool} (reachable : planner.Reachable A eliminate)
    (reachable' : planner'.Reachable A eliminate') (transparent : Transparent A roots kinds)
    (accepted : ∃ made', planner'.compile roots kinds = .ok made') :
    planner.compile roots kinds = .error .quotientOverflow ∨
      ∃ made, planner.compile roots kinds = .ok made := by
  have faithful := reachable.faithful
  have faithful' := reachable'.faithful
  -- The other planner has built its plan of the same lowered formulas.
  obtain ⟨⟨p, next⟩, compiled⟩ := accepted
  obtain ⟨-, codes, lowered, built⟩ := faithful'.compile compiled
  obtain ⟨symbols, named, made⟩ := Result.bind_eq_ok.mp built
  rw [faithful'.algebra, faithful'.eliminates] at made
  have count : symbols.length = kinds.length := length_symbolsFrom named
  -- The symbolic values of the entities are leaves of the space.
  have leaves : ∀ a ∈ symbols, a.IsLeafOf A.dim (inputSize kinds) := by
    intro a inside
    obtain ⟨canonical, plain, ids⟩ := symbolsFrom_spec transparent.wellFormed named a inside
    rw [Nat.zero_add] at ids
    exact ⟨transparent.bounded symbols named a inside, canonical.ordered,
      decide_eq_true plain.1, ids⟩
  rcases @compile_or_error planner roots kinds codes lowered with compiled | ⟨cause, failed, failed'⟩
  · exact .inr compiled
  rw [build, named, Result.ok_bind, faithful.algebra, faithful.eliminates] at failed
  rcases Plan.ofProgram_follows leaves (Expr.wellFormed_of_lower lowered)
    (count ▸ transparent.codes codes lowered) made with overflow | ⟨plan, planned⟩
  · obtain rfl : cause = .quotientOverflow := Except.error.inj (failed.symm.trans overflow)
    exact .inl failed'
  · cases planned.symm.trans failed

/-- A planner without plans compiles formulas if the program that they lower to makes a plan. -/
theorem compile_start_iff {A : Algebra} {eliminate : Bool} {roots : List Expr}
    {kinds : List EntityKind} {codes : List Code} {symbols : List Multivector} {program : Program}
    (lowered : roots.mapM Expr.lower = .ok codes) (named : Planner.symbols kinds = .ok symbols)
    (compiled : Program.ofCodes eliminate codes = program) :
    (∃ made, Planner.compile { algebra := A, eliminate } roots kinds = .ok made) ↔
      (Plan.ofProgram A symbols (inputSize kinds) program).toBool = true := by
  -- Without plans there is none to be found.
  have built : Planner.build { algebra := A, eliminate } codes kinds =
      Plan.ofProgram A symbols (inputSize kinds) program := by
    rw [Planner.build, named, Result.ok_bind, compiled]
  rw [compile_of_absent lowered rfl, built]
  cases Plan.ofProgram A symbols (inputSize kinds) program with
  | ok plan => exact iff_of_true ⟨_, rfl⟩ rfl
  | error cause => exact iff_of_false (fun made => by cases made.choose_spec) (by simp [Except.toBool])

/-- Elimination of common subexpressions changes nothing about which formulas are accepted, if it hides
nothing inside a divisor or the argument of a transcendental function: formulas that are accepted with
it or without it are accepted either way, unless a coefficient overflows. -/
theorem compile_accepts (reachable : planner.Reachable A true) (reachable' : planner'.Reachable A false)
    (transparent : Transparent A roots kinds) :
    ((∃ made', planner'.compile roots kinds = .ok made') →
      planner.compile roots kinds = .error .quotientOverflow ∨
        ∃ made, planner.compile roots kinds = .ok made) ∧
    ((∃ made, planner.compile roots kinds = .ok made) →
      planner'.compile roots kinds = .error .quotientOverflow ∨
        ∃ made', planner'.compile roots kinds = .ok made') :=
  ⟨compile_follows reachable reachable' transparent, compile_follows reachable' reachable transparent⟩

/-- Elimination shares the duals of a product, and leaves the argument of an exponential as it is. -/
theorem compile_accepts_product :
    let A : Algebra := { metric := .diagonal ⟨2, 0, 0, by decide⟩ }
    let kinds : List EntityKind := List.replicate 2 (.custom "Pair" ["x", "y"] [1, 2])
    let dual := Expr.unary .dual (.leaf 0)
    let roots := [.unary .exp (.wedge (.leaf 0) (.leaf 1)), .binary .geometric dual dual]
    let planner : Planner := { algebra := A }
    let planner' : Planner := { algebra := A, eliminate := false }
    Transparent A roots kinds ∧ (∃ made', planner'.compile roots kinds = .ok made') ∧
      (planner.compile roots kinds = .error .quotientOverflow ∨
        ∃ made, planner.compile roots kinds = .ok made) := by
  intro A kinds dual roots planner planner'
  let codes : List Code :=
    let vector := .leaf (.input 0) 1
    let dual := .node (.unary .dual) 1 [vector]
    [.node (.unary .exp) 1 [.node (.variadic .wedge 2) 1 [vector, .leaf (.input 1) 1]],
      .node (.binary .geometric) 1 [dual, dual]]
  have lowered : roots.mapM Expr.lower = .ok codes := by decide +kernel
  have named : Planner.symbols kinds = .ok [.fresh 0 [1, 2], .fresh 2 [1, 2]] := by decide_cbv
  -- The dual is repeated, but not inside of an argument that is looked at.
  have transparent : Transparent A roots kinds :=
    { wellFormed := by decide
      bounded := fun symbols given => by
        cases named.symm.trans given
        decide
      codes := fun others given => by
        cases lowered.symm.trans given
        exact ⟨by simp [codes, Code.every_node, Head.InSpace, kinds, Code.leaf, Code.head], by decide +kernel,
          by decide +kernel⟩ }
  let vector : Instruction := ⟨1536578643, 1, .perform (.input 0)⟩
  let dualize : Instruction := ⟨2409066330, 1, .perform (.unary .dual)⟩
  have program : Program.ofCodes false codes =
      ⟨[.operand 1, vector, .operand 1, ⟨747726021, 1, .perform (.input 1)⟩,
        ⟨2609824753, 1, .perform (.variadic .wedge 2)⟩, .store, ⟨2609824753, 1, .load 0⟩,
        ⟨775020785, 1, .perform (.unary .exp)⟩, .store, ⟨775020785, 1, .load 1⟩, vector, dualize,
        vector, dualize, ⟨216185962, 1, .perform (.binary .geometric)⟩], 2, 2⟩ := by
    rw [Program.ofCodes, Program.mk.injEq]
    decide +kernel
  have accepted : ∃ made', planner'.compile roots kinds = .ok made' :=
    (compile_start_iff lowered named program).mpr (by decide_cbv)
  -- What is accepted without elimination is accepted with it, unless a quotient overflows.
  exact ⟨transparent, accepted, (compile_accepts .start .start transparent).1 accepted⟩

/-- Elimination hides that the argument of a logarithm is zero, so that formulas are accepted with it
only, and that a product with a blade outside the space is one of zero, so that formulas are accepted
without it only. -/
theorem compile_accepts_hidden :
    let A : Algebra := { metric := .diagonal ⟨2, 0, 0, by decide⟩ }
    let pair : EntityKind := .custom "Pair" ["x", "y"] [1, 2]
    let far : EntityKind := .custom "Far" ["z"] [4]
    let accepted (eliminate : Bool) (roots : List Expr) (kinds : List EntityKind) : Prop :=
      ∃ made, Planner.compile { algebra := A, eliminate } roots kinds = .ok made
    let dual := Expr.unary .dual (.leaf 0)
    let inner := Expr.binary .inner (.leaf 0) dual
    let logarithm := [dual, .unary .log inner]
    let product := [dual, .binary .geometric inner (.leaf 1)]
    (accepted true logarithm [pair] ∧ ¬ accepted false logarithm [pair]) ∧
      ¬ accepted true product [pair, far] ∧ accepted false product [pair, far] := by
  intro A pair far accepted dual inner logarithm product
  let leaf : Code := .leaf (.input 0) 1
  let stem : Code := .node (.unary .dual) 1 [leaf]
  let scalar : Code := .node (.binary .inner) 1 [leaf, stem]
  let vector : Instruction := ⟨1536578643, 1, .perform (.input 0)⟩
  let dualize : Instruction := ⟨2409066330, 1, .perform (.unary .dual)⟩
  let load : Instruction := ⟨2409066330, 1, .load 0⟩
  let contract : Instruction := ⟨330423620, 1, .perform (.binary .inner)⟩
  -- What is looked at in the logarithm and in the product is loaded with elimination, and computed in
  -- place without it.
  refine ⟨?_, ?_⟩
  · let codes : List Code := [stem, .node (.unary .log) 1 [scalar]]
    let log : Instruction := ⟨2250963979, 1, .perform (.unary .log)⟩
    have named : Planner.symbols [pair] = .ok [.fresh 0 [1, 2]] := by decide_cbv
    have lowered : logarithm.mapM Expr.lower = .ok codes := by decide +kernel
    have shared : Program.ofCodes true codes =
        ⟨[vector, dualize, .store, vector, load, contract, .store, ⟨330423620, 1, .load 1⟩, log,
          .store, load, ⟨2250963979, 1, .load 2⟩], 3, 2⟩ := by
      rw [Program.ofCodes, Program.mk.injEq]
      decide +kernel
    have plain : Program.ofCodes false codes =
        ⟨[vector, vector, dualize, contract, .store, ⟨330423620, 1, .load 0⟩, log, .store,
          vector, dualize, ⟨2250963979, 1, .load 1⟩], 2, 2⟩ := by
      rw [Program.ofCodes, Program.mk.injEq]
      decide +kernel
    exact ⟨(compile_start_iff lowered named shared).mpr (by decide_cbv),
      (not_congr (compile_start_iff lowered named plain)).mpr (by decide_cbv)⟩
  · let codes : List Code := [stem, .node (.binary .geometric) 1 [scalar, .leaf (.input 1) 1]]
    let multiply : List Instruction :=
      [⟨747726021, 1, .perform (.input 1)⟩, ⟨4242029225, 1, .perform (.binary .geometric)⟩]
    have named : Planner.symbols [pair, far] = .ok [.fresh 0 [1, 2], .fresh 2 [4]] := by decide_cbv
    have lowered : product.mapM Expr.lower = .ok codes := by decide +kernel
    have shared : Program.ofCodes true codes =
        ⟨[vector, dualize, .store, load, vector, load, contract] ++ multiply, 1, 2⟩ := by
      rw [Program.ofCodes, Program.mk.injEq]
      decide +kernel
    have plain : Program.ofCodes false codes =
        ⟨[vector, dualize, vector, vector, dualize, contract] ++ multiply, 0, 2⟩ := by
      rw [Program.ofCodes, Program.mk.injEq]
      decide +kernel
    exact ⟨(not_congr (compile_start_iff lowered named shared)).mpr (by decide_cbv),
      (compile_start_iff lowered named plain).mpr (by decide_cbv)⟩

end Planner

end Clifford
