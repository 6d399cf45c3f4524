import Clifford.Proofs.Multivector.Scaling
import Clifford.Proofs.Plan.Domain
import Clifford.Proofs.Planner.Leaves

/-! Scaling in reductions and in plans: where the gate drops no coefficient, every value is in canonical
form, so that zeros are seen and no reciprocal of zero is taken. -/

namespace Clifford

open Result

/-- A mechanical failure is not a missing reciprocal. -/
theorem Error.Mechanical.ne_zeroReciprocal {cause : Error} (mechanical : cause.Mechanical) :
    cause ≠ .zeroReciprocal := by
  -- None of the mechanical causes is this one.
  cases mechanical <;> simp

/-- A result that is in canonical form, unless the operation fails, and never for a missing reciprocal. -/
abbrev YieldsCanonical (x : Result Multivector) : Prop :=
  Yields Multivector.Canonical (· ≠ .zeroReciprocal) x

variable {A : Algebra} {leaves : List Multivector} {a b c : Multivector} {q : Rat}

/-- A multiple of something canonical is canonical, where the gate drops nothing. -/
theorem Multivector.Canonical.yields_scale (canonical : a.Canonical) (kept : a.Keeps q) :
    YieldsCanonical (a.scale q) where
  value _ made := (canonical_scale made).mpr (.inr ⟨canonical, kept⟩)
  fails := (a.scale_fails q).mono fun _ => Error.Mechanical.ne_zeroReciprocal

/-- A projection of something canonical is canonical, where the gate drops nothing. -/
theorem Multivector.Canonical.yields_extract {element : Nat} (canonical : a.Canonical)
    (kept : a.KeepsPart element) : YieldsCanonical (a.extract element) where
  value _ made := (canonical_extract canonical made).mpr kept
  fails := (a.extract_fails element).mono fun _ => Error.Mechanical.ne_zeroReciprocal

/-- Constants are canonical. -/
theorem ConstantKind.yields_value (kind : ConstantKind) (element : Nat) :
    YieldsCanonical (kind.value element) := by
  -- The transcendental ones are indeterminates, as those of inputs are.
  have single (id : Nat) : YieldsCanonical (Multivector.indeterminate id 0 1 1) := by
    rw [Multivector.indeterminate_eq_fresh]
    exact .ok (Multivector.canonical_fresh (List.pairwise_singleton _ _))
  cases kind with
  | zero => exact .ok (Multivector.canonical_basis 0 0)
  | basis => exact .ok (Multivector.canonical_basis element 1)
  | pi | e => exact single _

/-- Operators of one operand keep the canonical form, and take no reciprocal. -/
theorem UnaryOp.yields_apply (op : UnaryOp) (arg : a.Canonical) : YieldsCanonical (op.apply A a) := by
  -- A deferred function is refused for what it is applied to.
  have deferred (fn : Deferred) : YieldsCanonical (a.withOp fn) := by
    refine ⟨fun _ => Multivector.canonical_withOp arg, ?_⟩
    rw [Multivector.withOp]
    split
    · exact .error (by simp)
    split
    · exact .error (by simp)
    split
    · exact .ok _
    · exact .ok _
  -- The other operators work on plain operands, and move coefficients or change their signs.
  cases op with
  | reverse =>
    exact ⟨fun _ => Multivector.canonical_reverse arg, Multivector.reverse_fails a.requirePlain_reciprocal⟩
  | dual =>
    exact ⟨fun _ => Multivector.canonical_dual arg, Multivector.dual_fails
      (fun _ => Error.Mechanical.ne_zeroReciprocal) a.requirePlain_reciprocal _⟩
  | sqrt | sin | cos | tan => exact deferred _
  | exp | log => exact .error (by simp)

/-- Operators of two operands keep the canonical form, and a divisor in this form has a reciprocal. -/
theorem BinaryOp.yields_apply (op : BinaryOp) (left : a.Canonical) (right : b.Canonical) :
    YieldsCanonical (op.apply A a b) := by
  cases op with
  | geometric | contract | inner =>
    exact ⟨fun _ => BladeProduct.canonical_product left right, Multivector.product_fails
      (fun _ => Error.Mechanical.ne_zeroReciprocal) _ _ a.requirePlain_reciprocal
      b.requirePlain_reciprocal⟩
  | divide =>
    -- Only the divisor could lead to the reciprocal of zero.
    refine ⟨fun _ => Multivector.canonical_divide left right, ?_⟩
    rintro cause failed rfl
    exact right.seesZero.reciprocal a failed

/-- Operators of any number of operands keep the canonical form, and take no reciprocal. -/
theorem VariadicOp.yields_apply (op : VariadicOp) {args : List Multivector}
    (each : ∀ a ∈ args, a.Canonical) : YieldsCanonical (op.apply A args) where
  value _ := op.holds_of_apply (fun left right made => by
    cases op with
    | sum => exact Multivector.canonical_add left right made
    | wedge => exact BladeProduct.canonical_product left right made) each
  -- No product and no sum takes a reciprocal, and their operands are only refused for being deferred.
  fails := op.apply_fails (fun _ => Error.Mechanical.ne_zeroReciprocal)
    fun a _ => a.requirePlain_reciprocal

namespace Expr

/-- The gate drops no coefficient in the reduction of a formula: none of a constant or of a node that has
a multiplier, and none on the blade of a projection. -/
inductive Keeps (A : Algebra) (leaves : List Multivector) : Expr → Prop
  | leaf (index : Nat) : Keeps A leaves (leaf index)
  | constant {kind : ConstantKind} {element : Nat} {q : Rat}
      (kept : ∀ value, kind.value element = .ok value → value.Keeps q) :
      Keeps A leaves (constant kind element q)
  | scaled {q : Rat} {arg : Expr} (below : Keeps A leaves arg)
      (kept : ∀ value, arg.reduce A leaves = .ok value → value.Keeps q) :
      Keeps A leaves (scaled q arg)
  | unary {op : UnaryOp} {arg : Expr} (below : Keeps A leaves arg) : Keeps A leaves (unary op arg)
  | binary {op : BinaryOp} {left right : Expr} (first : Keeps A leaves left)
      (second : Keeps A leaves right) : Keeps A leaves (binary op left right)
  | variadic {op : VariadicOp} {args : List Expr} (below : ∀ arg ∈ args, Keeps A leaves arg) :
      Keeps A leaves (variadic op args)
  | component {arg : Expr} {element : Nat} (below : Keeps A leaves arg)
      (kept : ∀ value, arg.reduce A leaves = .ok value → value.KeepsPart element) :
      Keeps A leaves (component arg element)
  | foreign (kind : String) : Keeps A leaves (foreign kind)

/-- Formulas that yield something canonical each do so one after the other. -/
theorem yields_reduceAll {args : List Expr} (each : ∀ arg ∈ args, YieldsCanonical (arg.reduce A leaves)) :
    Yields (fun values => ∀ a ∈ values, a.Canonical) (· ≠ .zeroReciprocal) (reduceAll A leaves args) := by
  -- The first formula is reduced before the others.
  induction args with
  | nil =>
    rw [reduceAll]
    exact .ok (by simp)
  | cons arg rest ih =>
    obtain ⟨own, others⟩ := List.forall_mem_cons.mp each
    rw [reduceAll]
    exact own.bind fun value _ canonical => (ih others).bind fun values _ rest =>
      .ok (List.forall_mem_cons.mpr ⟨canonical, rest⟩)

/-- A reduction in which the gate drops nothing gives something canonical, and takes no reciprocal of
zero. -/
theorem Keeps.yields_reduce {root : Expr} (kept : root.Keeps A leaves)
    (given : ∀ a ∈ leaves, a.Canonical) : YieldsCanonical (root.reduce A leaves) := by
  -- A value is canonical because those of its operands are, so the induction follows the formula.
  induction kept with
  | leaf index =>
    rw [reduce]
    -- An index beyond the leaves is another reason to fail.
    split
    · rename_i value found
      exact .ok (given value (List.mem_of_getElem? found))
    · exact .error (by simp)
  | @constant kind element q kept =>
    rw [reduce]
    -- A constant is a multiple, whose coefficient the gate may drop as well.
    exact (kind.yields_value element).bind fun value made canonical =>
      canonical.yields_scale (kept value made)
  | scaled below kept ih =>
    rw [reduce]
    exact ih.bind fun value made canonical => canonical.yields_scale (kept value made)
  | unary below ih =>
    rw [reduce]
    exact ih.bind fun value _ canonical => UnaryOp.yields_apply _ canonical
  | binary first second ihFirst ihSecond =>
    rw [reduce]
    exact ihFirst.bind fun left _ canonical => ihSecond.bind fun right _ canonical' =>
      BinaryOp.yields_apply _ canonical canonical'
  | @variadic op args below ih =>
    -- The operands are reduced one after the other, each with its own hypothesis.
    rw [reduce]
    exact (yields_reduceAll ih).bind fun values _ each => op.yields_apply each
  | component below kept ih =>
    rw [reduce]
    exact ih.bind fun value made canonical => canonical.yields_extract (kept value made)
  | foreign kind =>
    rw [reduce]
    exact .error (by simp)

/-- Where the coefficients of a plain divisor vanish, the reduction of a quotient of something plain divides
by zero. -/
theorem Keeps.divide_vanishing {left right : Expr} (kept : right.Keeps A leaves)
    (given : ∀ a ∈ leaves, a.Canonical) (first : left.reduce A leaves = .ok a)
    (second : right.reduce A leaves = .ok b) (plainLeft : a.isPlain = true) (plainRight : b.isPlain = true)
    (vanishes : b.Vanishes) :
    (Expr.binary .divide left right).reduce A leaves = .error .divisionByZero := by
  -- Nothing is asked of the dividend but that it is plain.
  have divisor := ((kept.yields_reduce given).value b second).seesZero
  rw [Expr.reduce, first, second]
  exact divisor.divided vanishes plainRight a plainLeft

end Expr

namespace Machine

/-- All values of a machine are canonical. -/
structure Canonical (m : Machine) : Prop where
  stack : ∀ a ∈ m.stack, a.Canonical
  temporaries : ∀ a ∈ m.temporaries, a.Canonical

/-- The gate drops no coefficient on the blade of a projection. -/
def KeepsPart (m : Machine) : Head → Prop
  | .component element => ∀ arg ∈ m.stack.head?, arg.KeepsPart element
  | _ => True

/-- The gate drops no coefficient of what an action is to push with a multiplier. -/
def Keeps (A : Algebra) (leaves : List Multivector) (m : Machine) (q : Rat) : Action → Prop
  | .operand _ => True
  | .store => True
  | .load index => ∀ value ∈ m.temporaries[index]?, value.Keeps q
  | .perform head =>
    m.KeepsPart head ∧ ∀ value, m.perform A leaves head = .ok value → value.1.Keeps q

/-- The gate drops no coefficient while instructions run, as far as they do. -/
def KeepsAlong (A : Algebra) (leaves : List Multivector) : Machine → List Instruction → Prop
  | _, [] => True
  | m, i :: is => m.Keeps A leaves i.scale i.action ∧
      ∀ next, m.step A leaves i = .ok next → next.KeepsAlong A leaves is

variable {m : Machine} {i : Instruction} {is : List Instruction}

/-- Along the beginning of instructions nothing is dropped either. -/
theorem KeepsAlong.left {js : List Instruction} (kept : m.KeepsAlong A leaves (is ++ js)) :
    m.KeepsAlong A leaves is := by
  -- What is asked of an instruction only depends on those before it.
  induction is generalizing m with
  | nil => trivial
  | cons i is ih => exact ⟨kept.1, fun next step => ih (kept.2 next step)⟩

/-- The top of a stack of canonical values is canonical, and so is what is below it. -/
theorem Canonical.yields_pop (canonical : m.Canonical) :
    Yields (fun p => p.1.Canonical ∧ p.2.Canonical ∧ m.stack.head? = some p.1) (· ≠ .zeroReciprocal)
      m.pop := by
  rw [pop]
  -- An empty stack is refused for that.
  split
  · exact .error (by simp)
  · rename_i top rest stack
    obtain ⟨first, others⟩ := List.forall_mem_cons.mp (stack ▸ canonical.stack)
    exact .ok ⟨first, ⟨others, canonical.temporaries⟩, by rw [stack]; rfl⟩

/-- An argument of a function on dense multivectors is refused for its blades, whatever its coefficients
are. -/
theorem requireArgument_reciprocal (function : RotorFunction) (arg : Multivector) :
    FailsOnly (· ≠ .zeroReciprocal) (function.requireArgument arg) := by
  -- Each refusal is a cause of its own.
  cases function with
  | exp =>
    simp only [RotorFunction.requireArgument]
    split
    · exact .error (by simp)
    split
    · exact .error (by simp)
    · exact .ok _
  | log =>
    simp only [RotorFunction.requireArgument]
    split
    · exact .error (by simp)
    split
    · exact .error (by simp)
    split
    · exact .error (by simp)
    · exact .ok _

/-- A function on dense multivectors has a number or fresh indeterminates as its value. -/
theorem Canonical.yields_applyFunction (canonical : m.Canonical) (function : RotorFunction)
    (arg : Multivector) : Yields (fun p => p.1.Canonical ∧ p.2.Canonical) (· ≠ .zeroReciprocal)
      (m.applyFunction A function arg) := by
  have required : Yields (fun _ => True) (· ≠ .zeroReciprocal) (function.requireArgument arg) :=
    ⟨fun _ _ => trivial, requireArgument_reciprocal function arg⟩
  -- Zero has a value that is known, and anything else one on the blades that the function reaches.
  refine required.bind fun _ _ _ => ?_
  split
  · exact .ok ⟨Multivector.canonical_basis 0 1, canonical⟩
  · rw [function.block_eq]
    exact .ok ⟨Multivector.canonical_fresh (function.pairwise_blades A.dim),
      canonical.stack, canonical.temporaries⟩

/-- An operation on canonical values gives a canonical one, and takes no reciprocal of zero. -/
theorem Canonical.yields_perform (canonical : m.Canonical) (given : ∀ a ∈ leaves, a.Canonical)
    {head : Head} (kept : m.KeepsPart head) :
    Yields (fun p => p.1.Canonical ∧ p.2.Canonical) (· ≠ .zeroReciprocal)
      (m.perform A leaves head) := by
  -- Operands are canonical because the whole stack is, and so is what is left of it.
  cases head with
  | input index =>
    rw [perform]
    split
    · rename_i value found
      exact .ok ⟨given value (List.mem_of_getElem? found), canonical⟩
    · exact .error (by simp)
  | constant kind element =>
    exact (kind.yields_value element).bind fun value _ own => .ok ⟨own, canonical⟩
  | unary op =>
    refine canonical.yields_pop.bind ?_
    rintro ⟨arg, n⟩ - ⟨own, below, -⟩
    dsimp only
    -- Some operators are dense functions, which the machine applies to its own indeterminates.
    split
    · exact below.yields_applyFunction _ arg
    · exact (op.yields_apply own).bind fun value _ result => .ok ⟨result, below⟩
  | binary op =>
    refine canonical.yields_pop.bind ?_
    rintro ⟨right, n⟩ - ⟨second, below, -⟩
    refine below.yields_pop.bind ?_
    rintro ⟨left, n'⟩ - ⟨first, below, -⟩
    exact (op.yields_apply first second).bind fun value _ result => .ok ⟨result, below⟩
  | variadic op count =>
    have operands : ∀ a ∈ (m.popOperands count).1, a.Canonical :=
      fun a inside => canonical.stack a (List.mem_of_mem_take (List.mem_reverse.mp inside))
    have below : (m.popOperands count).2.Canonical :=
      ⟨fun a inside => canonical.stack a (List.mem_of_mem_drop inside), canonical.temporaries⟩
    exact (op.yields_apply operands).bind fun value _ result => .ok ⟨result, below⟩
  | component element =>
    refine canonical.yields_pop.bind ?_
    rintro ⟨arg, n⟩ - ⟨own, below, top⟩
    exact (own.yields_extract (kept arg top)).bind fun value _ result => .ok ⟨result, below⟩

/-- A machine of canonical values stays so by an instruction, and takes no reciprocal of zero. -/
theorem Canonical.yields_step (canonical : m.Canonical) (given : ∀ a ∈ leaves, a.Canonical)
    (kept : m.Keeps A leaves i.scale i.action) :
    Yields Canonical (· ≠ .zeroReciprocal) (m.step A leaves i) := by
  -- What is pushed has been multiplied, which is where a coefficient could be dropped.
  have pushed {n : Machine} {a : Multivector} (below : n.Canonical) (own : a.Canonical)
      (kept : a.Keeps i.scale) : Yields Canonical (· ≠ .zeroReciprocal) (n.push a i.scale) :=
    (own.yields_scale kept).bind fun b _ multiple =>
      .ok ⟨List.forall_mem_cons.mpr ⟨multiple, below.stack⟩, below.temporaries⟩
  rw [step]
  cases action : i.action with
  | operand length => exact .ok canonical
  | store =>
    refine canonical.yields_pop.bind ?_
    rintro ⟨a, n⟩ - ⟨own, below, -⟩
    dsimp only
    -- A reference has an indeterminate for each term, whatever the coefficients are.
    rw [Multivector.reference, Multivector.ofElements_eq_fresh own.ordered]
    refine .ok ⟨below.stack, fun b inside => ?_⟩
    rcases List.mem_append.mp inside with old | new
    · exact below.temporaries b old
    · obtain rfl := List.mem_singleton.mp new
      exact Multivector.canonical_fresh own.ordered
  | load index =>
    rw [action] at kept
    dsimp only
    split
    · rename_i value found
      exact pushed canonical (canonical.temporaries _ (List.mem_of_getElem? found)) (kept value found)
    · exact .error (by simp)
  | perform head =>
    rw [action] at kept
    refine (canonical.yields_perform given kept.1).bind ?_
    rintro ⟨value, n⟩ made ⟨own, below⟩
    exact pushed below own (kept.2 (value, n) made)

/-- A run in which the gate drops nothing leads to canonical values, and takes no reciprocal of zero. -/
theorem KeepsAlong.yields_run (kept : m.KeepsAlong A leaves is) (given : ∀ a ∈ leaves, a.Canonical)
    (canonical : m.Canonical) : Yields Canonical (· ≠ .zeroReciprocal) (m.run A leaves is) := by
  -- Every machine on the way is canonical, which the step lemma hands on.
  induction is generalizing m with
  | nil => exact .ok canonical
  | cons i is ih =>
    rw [run_cons]
    exact (canonical.yields_step given kept.1).bind fun next made canonical =>
      ih (kept.2 next made) canonical

/-- The first machine has no values. -/
theorem canonical_start (id : Nat) : (start id).Canonical := ⟨by simp [start], by simp [start]⟩

/-- The machine that the beginning of a run leads to is canonical, if the gate drops nothing in the run. -/
theorem KeepsAlong.canonical {js : List Instruction} {id : Nat}
    (kept : (start id).KeepsAlong A leaves (is ++ js)) (given : ∀ a ∈ leaves, a.Canonical)
    (run : (start id).run A leaves is = .ok m) : m.Canonical :=
  (kept.left.yields_run given (canonical_start id)).value m run

/-- The run of a program in which the gate drops nothing takes no reciprocal of zero. -/
theorem KeepsAlong.ofProgram_ne {p : Program} {id : Nat}
    (kept : (start id).KeepsAlong A leaves p.instructions) (given : ∀ a ∈ leaves, a.Canonical) :
    Plan.ofProgram A leaves id p ≠ .error .zeroReciprocal := by
  intro failed
  -- The number of outputs is another reason to fail.
  rcases Result.bind_eq_error.mp failed with early | ⟨m, -, rest⟩
  · exact (kept.yields_run given (canonical_start id)).fails _ early rfl
  · split at rest <;> cases rest

/-- Where the coefficients of a plain divisor vanish, the run of a program that gets to it divides by zero. -/
theorem KeepsAlong.divide_vanishing {p : Program} {id : Nat} {before after : List Instruction}
    {rest : List Multivector} (kept : (start id).KeepsAlong A leaves p.instructions)
    (given : ∀ a ∈ leaves, a.Canonical) (split : p.instructions = before ++ i :: after)
    (run : (start id).run A leaves before = .ok m) (divides : i.action = .perform (.binary .divide))
    (stack : m.stack = b :: a :: rest) (left : a.isPlain = true) (right : b.isPlain = true)
    (vanishes : b.Vanishes) : Plan.ofProgram A leaves id p = .error .divisionByZero := by
  rw [split] at kept
  -- The values in front of the division are canonical, so the divisor is seen to be zero.
  have canonical := kept.canonical given run
  have divided := (canonical.stack b (by simp [stack])).seesZero.divided vanishes right a left
  -- So the step of the division fails, and the run with it.
  have failed : m.step A leaves i = .error .divisionByZero := by
    simp only [step, divides, perform, pop, stack, Result.ok_bind, BinaryOp.apply, divided,
      Result.error_bind]
  rw [Plan.ofProgram, split, run_append, run, Result.ok_bind, run_cons, failed]
  rfl

end Machine

namespace Planner

variable (planner : Planner) (name : String) {leaves : List Multivector}

/-- Scaling keeps the canonical form exactly where the gate drops no coefficient, and the gate only drops
numbers that are tiny and have a large denominator, among them all below its floor. Where it drops nothing
in a reduction or in the run of a program, all values are in canonical form. So a value whose coefficients
vanish is seen to be zero, a division by it is refused for that, and the reciprocal of zero is never taken. -/
theorem scaling_canonical (given : ∀ a ∈ leaves, a.checkCanonical name = .ok ()) :
    (∀ (a : Multivector) (q : Rat), a.checkCanonical name = .ok () → a.isPlain = true → q ≠ 0 →
      (∀ b, a.scale q = .ok b → (b.checkCanonical name = .ok () ↔
        q = 1 ∨ ∀ e ∈ a.entries, ¬ GateDrops (e.monomial.coefficient * q))) ∧
      (∀ cause, a.scale q = .error cause → cause = .quotientOverflow) ∧
      ((∀ e ∈ a.entries, |e.monomial.coefficient * q| ≤ 2 ^ 1000) → ∃ b, a.scale q = .ok b)) ∧
    (∀ x, (GateDrops x → gateThreshold ≤ x.den ∧ |x| < gateMargin) ∧
      (x ≠ 0 → gateThreshold ≤ x.den → |x| ≤ gateFloor → GateDrops x)) ∧
    (∀ root : Expr, root.Keeps planner.algebra leaves →
      (∀ value, root.reduce planner.algebra leaves = .ok value → value.SeesZero) ∧
      root.reduce planner.algebra leaves ≠ .error .zeroReciprocal) ∧
    (∀ (left right : Expr) (a b : Multivector), right.Keeps planner.algebra leaves →
      left.reduce planner.algebra leaves = .ok a → right.reduce planner.algebra leaves = .ok b →
      a.isPlain = true → b.isPlain = true → b.Vanishes →
      (Expr.binary .divide left right).reduce planner.algebra leaves = .error .divisionByZero) ∧
    (∀ (p : Program) (id : Nat),
      (Machine.start id).KeepsAlong planner.algebra leaves p.instructions →
      (∀ before after m, p.instructions = before ++ after →
        (Machine.start id).run planner.algebra leaves before = .ok m →
        ∀ value ∈ m.stack, value.SeesZero) ∧
      (∀ before i after m a b rest, p.instructions = before ++ i :: after →
        (Machine.start id).run planner.algebra leaves before = .ok m →
        i.action = .perform (.binary .divide) → m.stack = b :: a :: rest →
        a.isPlain = true → b.isPlain = true → b.Vanishes →
        Plan.ofProgram planner.algebra leaves id p = .error .divisionByZero) ∧
      Plan.ofProgram planner.algebra leaves id p ≠ .error .zeroReciprocal) ∧
    (∀ kinds symbols, (∀ kind ∈ kinds, kind.WellFormed) → Planner.symbols kinds = .ok symbols →
      (∀ a ∈ symbols, a.checkCanonical name = .ok ()) ∧
      ∀ root, planner.reduce root kinds = root.reduce planner.algebra symbols) := by
  simp only [Multivector.checkCanonical_eq_ok] at given ⊢
  refine ⟨fun a q canonical plain nonzero => ⟨fun b made => ?_, a.scale_overflows q,
      Multivector.exists_scale plain⟩,
    fun x => ⟨GateDrops.bounds, gateDrops_of_small⟩, fun root kept => ?_,
    fun left right a b kept => kept.divide_vanishing given,
    fun p id kept => ⟨fun before after m split run value inside => ?_,
      fun before i after m a b rest => kept.divide_vanishing given, kept.ofProgram_ne given⟩,
    fun kinds symbols wellFormed named => ⟨fun a inside => ?_, fun root => ?_⟩⟩
  · -- A plain operand in canonical form leaves the coefficients as the only condition.
    rw [Multivector.canonical_scale made, or_iff_right nonzero, and_iff_right canonical,
      Multivector.Keeps, imp_iff_right nonzero, imp_iff_right plain, or_iff_not_imp_left]
  · -- Values of a reduction are canonical, and canonical zeros are seen.
    have yields := kept.yields_reduce given
    exact ⟨fun value made => (yields.value value made).seesZero, fun failed => yields.fails _ failed rfl⟩
  · -- The same holds of the machines on the way of a run.
    exact (((split ▸ kept).canonical given run).stack value inside).seesZero
  · -- The leaves of a plan are the multivectors of its entities, which are canonical.
    exact (symbolsFrom_spec wellFormed named a inside).1
  · rw [reduce, named]
    rfl

/-- A third of a number over a fraction, where nothing is dropped, and the quotient by zero, beside a
multiple of one that is dropped. -/
theorem scaling_canonical_fraction :
    let planner : Planner := { algebra := { metric := .diagonal ⟨3, 0, 0, by decide⟩ } }
    let leaves := [Multivector.fresh 0 [0]]
    let root : Expr := .binary .divide (.scaled (1 / 3) (.leaf 0)) (.scalar (2 / 3))
    (∃ b, (Multivector.scalar 1).scale (1 / 10 ^ 8) = .ok b ∧ b.checkCanonical "a" ≠ .ok ()) ∧
    (∃ value, planner.reduce root [.scalar] = .ok value ∧ value.SeesZero) ∧
    (Expr.binary .divide root .zero).reduce planner.algebra leaves = .error .divisionByZero ∧
    ∃ p m, Program.compile true [root] = .ok p ∧
      (Machine.start 1).run planner.algebra leaves p.instructions = .ok m ∧
      (∀ value ∈ m.stack, value.SeesZero) ∧
      Plan.ofProgram planner.algebra leaves 1 p ≠ .error .zeroReciprocal := by
  intro planner leaves root
  have named : symbols [.scalar] = .ok leaves := by decide_cbv
  have wellFormed : ∀ kind ∈ [EntityKind.scalar], kind.WellFormed := by decide
  obtain ⟨scales, -, reduces, divides, runs, entities⟩ :=
    @scaling_canonical planner "a" leaves (by decide +kernel)
  -- Both multiples have small denominators, as they are taken of a unit.
  have third : (Multivector.fresh 0 [0]).Keeps (1 / 3) := by decide +kernel
  have fraction : (Multivector.basis 0 1).Keeps (2 / 3) := by decide +kernel
  have kept : root.Keeps planner.algebra leaves := by
    refine .binary (.scaled (.leaf 0) fun value found => ?_) (.constant fun value found => ?_)
    · cases found
      exact third
    · cases found
      exact fraction
  have reduced : root.reduce planner.algebra leaves = .ok { terms := [⟨0, [⟨1 / 2, [⟨0, 1⟩]⟩]⟩] } := by
    decide +kernel
  refine ⟨?_, ?_, ?_, ?_⟩
  · -- The multiple has a zero on the scalar blade, which the first part tells from the coefficient.
    refine ⟨{ terms := [⟨0, [⟨0, []⟩]⟩] }, by decide +kernel, ?_⟩
    rw [Ne, (scales (.scalar 1) (1 / 10 ^ 8) (by decide +kernel) rfl (by norm_num)).1 _ (by decide +kernel)]
    decide +kernel
  · rw [(entities [.scalar] leaves wellFormed named).2 root]
    exact ⟨_, reduced, (reduces root kept).1 _ reduced⟩
  · have none : Expr.zero.Keeps planner.algebra leaves := .constant fun _ _ => Multivector.keeps_one
    have vanishes : Multivector.zero.Vanishes := by
      simp [Multivector.Vanishes, Multivector.entries, Multivector.zero]
    exact divides root .zero _ .zero none reduced rfl rfl rfl vanishes
  · -- The program loads both operands under their multipliers and divides them.
    let codes : List Code :=
      [.node (.binary .divide) 1 [.leaf (.input 0) (1 / 3), .leaf (.constant .basis 0) (2 / 3)]]
    have lowered : [root].mapM Expr.lower = .ok codes := by decide +kernel
    have program : Program.ofCodes true codes = ⟨[⟨1536578643, 1 / 3, .perform (.input 0)⟩,
        ⟨2798428842, 2 / 3, .perform (.constant .basis 0)⟩,
        ⟨41141489, 1, .perform (.binary .divide)⟩, .store, ⟨41141489, 1, .load 0⟩], 1, 1⟩ := by
      rw [Program.ofCodes, Program.mk.injEq]
      decide +kernel
    have along : (Machine.start 1).KeepsAlong planner.algebra leaves
        (Program.ofCodes true codes).instructions := by
      rw [program]
      refine ⟨⟨trivial, fun value made => ?_⟩, fun _ _ => ⟨⟨trivial, fun value made => ?_⟩, fun _ _ => ?_⟩⟩
      · cases made
        exact third
      · cases made
        exact fraction
      · -- What is behind the two leaves has no multiplier of its own.
        exact ⟨⟨trivial, fun _ _ => Multivector.keeps_one⟩, fun _ _ => ⟨trivial, fun _ _ =>
          ⟨fun _ _ => Multivector.keeps_one, fun _ _ => trivial⟩⟩⟩
    obtain ⟨values, -, reciprocal⟩ := runs _ 1 along
    have planned : Plan.ofProgram planner.algebra leaves 1 (Program.ofCodes true codes) =
        .ok ⟨[.value 1 { terms := [⟨0, [⟨1 / 2, [⟨0, 1⟩]⟩]⟩] }], [.fresh 1 [0]], 1, 2⟩ := by
      rw [program]
      decide_cbv
    obtain ⟨m, run, -⟩ := Result.bind_eq_ok.mp planned
    refine ⟨_, m, by rw [Program.compile, lowered]; rfl, run, ?_, reciprocal⟩
    exact values _ [] m (List.append_nil _).symm run

/-- The multiple of one that is dropped divides by a zero that is not seen. -/
example : (Expr.binary .divide (.leaf 0) (.scalar (1 / 10 ^ 8))).reduce
    { metric := .diagonal ⟨3, 0, 0, by decide⟩ } [.fresh 0 [0]] = .error .zeroReciprocal := by
  decide +kernel

end Planner

end Clifford
