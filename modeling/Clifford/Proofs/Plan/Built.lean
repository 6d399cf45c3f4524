import Clifford.Proofs.Multivector.Built
import Clifford.Proofs.Plan.Operation
import Clifford.Proofs.Plan.Step

/-! What a machine holds is built from the powers of its leaves, of constants and of the indeterminates
that it has named itself. -/

namespace Clifford

variable {A : Algebra} {Q : List Power → Prop} {a b c : Multivector}

/-- A constant is built from its power. -/
theorem ConstantKind.built (closed : PowerClosed Q) (pi : Q [Power.linear piId])
    (e : Q [Power.linear eId]) {kind : ConstantKind} {element : Nat}
    (given : kind.value element = .ok a) : a.Built Q := by
  -- Both numbers that have ids of their own are single indeterminates.
  have single {id : Nat} (power : Q [Power.linear id])
      (given : Multivector.indeterminate id 0 1 1 = .ok a) : a.Built Q := by
    obtain rfl := Except.ok.inj ((Multivector.indeterminate_eq_fresh id 0).symm.trans given)
    exact Multivector.built_single power
  cases kind with
  | zero =>
    cases given
    exact Multivector.built_zero
  | basis =>
    cases given
    exact Multivector.built_basis closed _ _
  | pi => exact single pi given
  | e => exact single e given

/-- The result of an operator of one operand is built from the powers of the operand. -/
theorem UnaryOp.built (closed : PowerClosed Q) {op : UnaryOp} (arg : a.Built Q)
    (applied : op.apply A a = .ok b) : b.Built Q := by
  -- Exponentials and logarithms are not applied symbolically.
  cases op with
  | reverse => exact arg.reverse applied
  | dual => exact arg.dual applied
  | sqrt | sin | cos | tan => exact arg.withOp closed applied
  | exp => cases applied
  | log => cases applied

/-- The result of an operator of two operands is built from the powers of both. -/
theorem BinaryOp.built (closed : PowerClosed Q) {op : BinaryOp} (left : a.Built Q) (right : b.Built Q)
    (applied : op.apply A a b = .ok c) : c.Built Q := by
  cases op with
  | geometric | contract | inner => exact left.product closed right applied
  | divide => exact left.divide closed right applied

/-- What two operands hand on to their value holds of the value of several operands, if it holds of each
of them. -/
theorem VariadicOp.holds_of_apply {S : Multivector → Prop} {op : VariadicOp}
    (combined : ∀ {a b c}, S a → S b → op.combine A a b = .ok c → S c) {args : List Multivector}
    (each : ∀ a ∈ args, S a) (applied : op.apply A args = .ok b) : S b := by
  cases args with
  | nil => cases applied
  | cons first rest =>
    obtain ⟨start, others⟩ := List.forall_mem_cons.mp each
    change rest.foldlM (op.combine A) first = .ok b at applied
    -- The operands are combined from the left, so the induction goes over what the first one may be.
    clear each
    induction rest generalizing first with
    | nil =>
      cases applied
      exact start
    | cons second rest ih =>
      rw [List.foldlM_cons] at applied
      obtain ⟨next, made, later⟩ := Result.bind_eq_ok.mp applied
      obtain ⟨own, others⟩ := List.forall_mem_cons.mp others
      exact ih next (combined start own made) others later

/-- The result of an operator of several operands is built from the powers of all of them. -/
theorem VariadicOp.built (closed : PowerClosed Q) {op : VariadicOp} {args : List Multivector}
    (each : ∀ a ∈ args, a.Built Q) (applied : op.apply A args = .ok b) : b.Built Q := by
  -- Two operands at a time are added or multiplied.
  refine op.holds_of_apply (fun left right made => ?_) each applied
  cases op with
  | sum => exact left.add right made
  | wedge => exact left.product closed right made

namespace Machine

/-- All values of a machine lie on increasing blades, and have powers with a property. -/
structure Built (Q : List Power → Prop) (m : Machine) : Prop where
  stack : ∀ a ∈ m.stack, a.Built Q
  temporaries : ∀ a ∈ m.temporaries, a.Built Q

variable {leaves : List Multivector} {m m' r : Machine} {head : Head} {i : Instruction}

/-- A weaker property of the powers. -/
theorem Built.mono {Q' : List Power → Prop} (weaker : ∀ {ps}, Q ps → Q' ps) (built : m.Built Q) :
    m.Built Q' :=
  ⟨fun a inside => (built.stack a inside).mono weaker,
    fun a inside => (built.temporaries a inside).mono weaker⟩

/-- Taking values off the stack leaves what is below them. -/
theorem Performed.stack_suffix (performed : m.Performed A leaves head a r) :
    r.stack <:+ m.stack ∧ r.temporaries = m.temporaries := by
  -- Each operation says how many values it takes.
  cases performed with
  | input | constant => exact ⟨List.suffix_rfl, rfl⟩
  | unary stack | known stack | block stack | component stack =>
    exact ⟨stack ▸ List.suffix_cons _ _, rfl⟩
  | binary stack => exact ⟨stack ▸ (List.suffix_cons _ _).trans (List.suffix_cons _ _), rfl⟩
  | variadic => exact ⟨List.drop_suffix _ _, rfl⟩

/-- An operation adds a step for its operand, with ids for its result, or no step at all. -/
theorem Performed.steps (performed : m.Performed A leaves head a r) :
    (r.steps = m.steps ∧ r.nextId = m.nextId) ∨ ∃ function arg, arg ∈ m.stack ∧
      a = .fresh m.nextId (RotorFunction.blades function A.dim) ∧
      r.steps = m.steps ++ [Step.block m.nextId function arg (RotorFunction.blades function A.dim)] ∧
      r.nextId = m.nextId + (RotorFunction.blades function A.dim).length := by
  -- Only the exponential or logarithm of something other than zero is left to a step.
  cases performed with
  | @block op function arg value rest stack rotor accepted nonzero made =>
    rw [function.block_eq] at made
    cases made
    exact .inr ⟨function, arg, by simp [stack], rfl, by simp, by simp⟩
  | input | constant | unary | known | binary | variadic | component => exact .inl ⟨rfl, rfl⟩

/-- A value that an operation gives is built from the powers of leaves, constants and operands, and from
the ids that it names. -/
theorem Performed.built (closed : PowerClosed Q) (pi : Q [Power.linear piId])
    (e : Q [Power.linear eId]) (given : ∀ a ∈ leaves, a.Built Q) (stack : ∀ a ∈ m.stack, a.Built Q)
    (named : ∀ id, m.nextId ≤ id → id < r.nextId → Q [Power.linear id])
    (performed : m.Performed A leaves head a r) : a.Built Q := by
  -- Operators work on the top of the stack, which is built from the powers.
  have top {arg : Multivector} {rest : List Multivector} (top : m.stack = arg :: rest) : arg.Built Q :=
    stack arg (by simp [top])
  cases performed with
  | input found => exact given _ (List.mem_of_getElem? found)
  | constant value => exact ConstantKind.built closed pi e value
  | unary values symbolic applied => exact UnaryOp.built closed (top values) applied
  | known => exact Multivector.built_basis closed _ _
  | @block op function arg value rest stack rotor accepted nonzero made =>
    -- The ids of the result are those that the machine names here.
    rw [function.block_eq] at made
    cases made
    refine Multivector.built_fresh (function.pairwise_blades A.dim) fun k small => ?_
    refine named _ (Nat.le_add_right _ _) (Nat.add_lt_add_left ?_ _)
    simpa using small
  | binary values applied =>
    exact BinaryOp.built closed (stack _ (by simp [values])) (top values) applied
  | variadic applied =>
    refine VariadicOp.built closed (fun a inside => ?_) applied
    exact stack a (List.mem_of_mem_take (List.mem_reverse.mp inside))
  | component values extracted => exact (top values).extract extracted

/-- An instruction keeps everything built from the powers of leaves and constants and from the ids that
have been named. -/
theorem Stepped.built (closed : PowerClosed Q) (pi : Q [Power.linear piId])
    (e : Q [Power.linear eId]) (given : ∀ a ∈ leaves, a.Built Q) (built : m.Built Q)
    (named : ∀ id, m.nextId ≤ id → id < m'.nextId → Q [Power.linear id])
    (stepped : m.Stepped A leaves i m') : m'.Built Q := by
  -- What is pushed is made of what is on the stack, in a temporary or named since.
  cases stepped with
  | operand => exact built
  | load loads found scaled =>
    have value := (built.temporaries _ (List.mem_of_getElem? found)).scale scaled
    exact ⟨List.forall_mem_cons.mpr ⟨value, built.stack⟩, built.temporaries⟩
  | @perform head a b r performs performed scaled =>
    have value := (performed.built (r := r) closed pi e given built.stack named).scale scaled
    obtain ⟨below, same⟩ := performed.stack_suffix
    exact ⟨List.forall_mem_cons.mpr ⟨value, fun a inside => built.stack a (below.subset inside)⟩,
      same ▸ built.temporaries⟩
  | @store a reference rest stores stack created =>
    have values := List.forall_mem_cons.mp (stack ▸ built.stack)
    -- The reference has an indeterminate on each blade of the value, and nothing else of it.
    obtain rfl := Except.ok.inj ((Multivector.ofElements_eq_fresh values.1.ordered).symm.trans created)
    refine ⟨values.2, fun b inside => ?_⟩
    rcases List.mem_append.mp inside with old | new
    · exact built.temporaries b old
    · obtain rfl := List.mem_singleton.mp new
      refine Multivector.built_fresh values.1.ordered fun k small => ?_
      refine named _ (Nat.le_add_right _ _) (Nat.add_lt_add_left ?_ _)
      simpa [Multivector.elements] using small

end Machine

end Clifford
