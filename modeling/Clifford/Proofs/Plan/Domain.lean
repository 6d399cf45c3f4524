import Clifford.Proofs.Code.Isolation
import Clifford.Proofs.Multivector.Domain
import Clifford.Proofs.Plan.Built

/-! Domains of programs: a machine meets nothing deferred where it performs an operation, and every
divisor but a leaf as a single monomial, so that it refuses nothing but blades that an operator is not
defined on, and polynomials that are leaves. -/

namespace Clifford

open Result

/-- A value that every operator takes: on increasing blades, with nothing deferred, and with a single
monomial on the scalar blade. -/
structure Multivector.Material (a : Multivector) : Prop where
  ordered : a.elements.Pairwise (· < ·)
  plain : a.isPlain = true
  atomic : a.Atomic

/-- What an entity promises of its symbolic value: a canonical polynomial, with nothing deferred. -/
structure Multivector.IsLeaf (a : Multivector) : Prop where
  canonical : a.Canonical
  plain : a.Plain

namespace Multivector

variable {a b : Multivector}

/-- The symbolic value of an entity is built from whatever powers it has. -/
theorem IsLeaf.built (leaf : a.IsLeaf) : a.Built fun _ => True :=
  ⟨leaf.canonical.ordered, fun _ _ => trivial⟩

/-- The symbolic value of an entity has no deferred function. -/
theorem IsLeaf.isPlain (leaf : a.IsLeaf) : a.isPlain = true := decide_eq_true leaf.plain.1

/-- A material multivector is built from whatever powers it has. -/
theorem Material.built (material : a.Material) : a.Built fun _ => True :=
  ⟨material.ordered, fun _ _ => trivial⟩

/-- A multiple of a material multivector is material. -/
theorem Material.scale {q : Rat} (material : a.Material) (made : a.scale q = .ok b) : b.Material :=
  ⟨(material.built.scale made).ordered, isPlain_scale material.plain made, material.atomic.scale made⟩

/-- A material multivector that is zero. -/
theorem material_zero : zero.Material := ⟨.nil, rfl, atomic_zero⟩

/-- A single short monomial is material. -/
theorem material_single {element : Nat} {m : Monomial} (short : m.powers.length ≤ 1) :
    Material { terms := [⟨element, [m]⟩] } :=
  ⟨List.pairwise_singleton _ _, rfl, atomic_single short⟩

/-- Fresh indeterminates are material. -/
theorem material_fresh {id : Nat} {blades : List Nat} (increasing : blades.Pairwise (· < ·)) :
    (fresh id blades).Material :=
  ⟨by rwa [elements_fresh], rfl, atomic_fresh id blades⟩

end Multivector

variable {A : Algebra} {P : DomainError → Prop} {a b c : Multivector}

/-- Constants are material. -/
theorem ConstantKind.material {kind : ConstantKind} {element : Nat}
    (given : kind.value element = .ok a) : a.Material := by
  have single {id : Nat} (given : Multivector.indeterminate id 0 1 1 = .ok a) : a.Material := by
    obtain rfl := Except.ok.inj ((Multivector.indeterminate_eq_fresh id 0).symm.trans given)
    exact Multivector.material_single le_rfl
  cases kind with
  | zero =>
    cases given
    exact Multivector.material_zero
  | basis =>
    cases given
    exact Multivector.material_single (Nat.zero_le 1)
  | pi => exact single given
  | e => exact single given

/-- Constants do not fail. -/
theorem ConstantKind.value_fails (kind : ConstantKind) (element : Nat) {E : Error → Prop} :
    FailsOnly E (kind.value element) := by
  have single (id : Nat) : FailsOnly E (Multivector.indeterminate id 0 1 1) := by
    rw [Multivector.indeterminate_eq_fresh]
    exact .ok _
  cases kind with
  | zero | basis => exact .ok _
  | pi | e => exact single _

/-- The function that an operator defers. -/
def UnaryOp.deferred? : UnaryOp → Option Deferred
  | sqrt => some .sqrt
  | sin => some .sin
  | cos => some .cos
  | tan => some .tan
  | _ => none

/-- What an operation refuses, over the stack with its top first: the exponential of anything but a
bivector, the logarithm of zero or of anything odd, and a function of anything but a scalar and a
quotient by it. -/
inductive Refused : Head → List Multivector → DomainError → Prop
  | exp {arg : Multivector} {rest : List Multivector}
      (stray : ∃ e ∈ arg.elements, Blade.grade e ≠ 2) :
      Refused (.unary .exp) (arg :: rest) (.expElements arg.elements)
  | logZero {arg : Multivector} {rest : List Multivector} (zero : arg.isZero = true) :
      Refused (.unary .log) (arg :: rest) .logZero
  | log {arg : Multivector} {rest : List Multivector}
      (odd : ∃ e ∈ arg.elements, Blade.grade e % 2 = 1) :
      Refused (.unary .log) (arg :: rest) (.logElements arg.elements)
  | function {op : UnaryOp} {fn : Deferred} {arg : Multivector} {rest : List Multivector}
      (defers : op.deferred? = some fn) (nonscalar : arg.HasNonscalar) :
      Refused (.unary op) (arg :: rest) (.notScalar fn arg.elements)
  | divide {dividend divisor : Multivector} {rest : List Multivector}
      (nonscalar : divisor.HasNonscalar) :
      Refused (.binary .divide) (divisor :: dividend :: rest) (.notScalarMonomial divisor.display)

/-- The value is the multiple of a leaf that an instruction pushes. -/
def Instruction.PushesLeaf (leaves : List Multivector) (i : Instruction) (a : Multivector) : Prop :=
  ∃ index leaf, i.action = .perform (.input index) ∧ leaves[index]? = some leaf ∧
    leaf.scale i.scale = .ok a

/-- What a quotient refuses of a scalar: a polynomial that the instruction in front of it has pushed as a
leaf. -/
inductive RefusedLeaf (leaves : List Multivector) (before : List Instruction) :
    Head → List Multivector → DomainError → Prop
  | divide {j : Instruction} {divisor : Multivector} {rest : List Multivector} {refusal : DomainError}
      (last : before.getLast? = some j) (pushes : j.PushesLeaf leaves divisor)
      (polynomial : divisor.RefusedScalar refusal) :
      RefusedLeaf leaves before (.binary .divide) (divisor :: rest) refusal

/-- Atomic leaves are not refused. -/
theorem not_refusedLeaf {leaves stack : List Multivector} {before : List Instruction} {head : Head}
    {refusal : DomainError} (atomic : ∀ a ∈ leaves, a.Atomic) :
    ¬ RefusedLeaf leaves before head stack refusal := by
  rintro ⟨-, ⟨index, leaf, -, found, scaled⟩, polynomial⟩
  -- A multiple of an atomic leaf is atomic.
  exact ((atomic leaf (List.mem_of_getElem? found)).scale scaled).not_refusedScalar polynomial

/-- An argument with nothing deferred is refused for its blades alone. -/
theorem RotorFunction.requireArgument_refuses {op : UnaryOp} {function : RotorFunction}
    (rotor : ofUnaryOp? op = some function) (plain : a.isPlain = true) (rest : List Multivector) :
    RefusesOnly (Refused (.unary op) (a :: rest)) (function.requireArgument a) := by
  -- Only the exponential and the logarithm ask for something of their argument.
  cases op with
  | exp =>
    cases rotor
    simp only [requireArgument, plain]
    split
    · contradiction
    split
    · rename_i stray
      exact .domain (.exp (by simpa using stray))
    · exact .ok _
  | log =>
    cases rotor
    simp only [requireArgument, plain]
    split
    · contradiction
    split
    · exact .domain (.logZero ‹_›)
    split
    · rename_i odd
      exact .domain (.log (by simpa using odd))
    · exact .ok _
  | reverse | dual | sqrt | sin | cos | tan => cases rotor

/-- An operator of one operand with nothing deferred is refused for the blades of the operand alone. -/
theorem UnaryOp.apply_refuses {op : UnaryOp} (symbolic : RotorFunction.ofUnaryOp? op = none)
    (ordered : a.elements.Pairwise (· < ·)) (plain : a.isPlain = true) (rest : List Multivector) :
    RefusesOnly (Refused (.unary op) (a :: rest)) (op.apply A a) := by
  -- What is left besides reversal and dual defers a function, each its own.
  have deferred {fn : Deferred} (defers : op.deferred? = some fn) :
      RefusesOnly (Refused (.unary op) (a :: rest)) (a.withOp fn) :=
    (Multivector.withOp_refuses plain ordered fn).mono fun refusal refused =>
      refused.1 ▸ .function defers refused.2
  cases op with
  | reverse => exact (Multivector.reverse_fails (Multivector.requirePlain_fails plain)).unrefused
  | dual => exact (Multivector.dual_fails (fun _ => id) (Multivector.requirePlain_fails plain) _).unrefused
  | sqrt | sin | cos | tan => exact deferred rfl
  | exp | log => cases symbolic

/-- An operator of two operands with nothing deferred is refused for the blades of a divisor, or for what
a quotient refuses of a scalar. -/
theorem BinaryOp.apply_refuses {op : BinaryOp} (left : a.isPlain = true) (right : b.isPlain = true)
    (ordered : b.elements.Pairwise (· < ·)) (rest : List Multivector) :
    RefusesOnly (fun refusal => Refused (.binary op) (b :: a :: rest) refusal ∨
      op = .divide ∧ b.RefusedScalar refusal) (op.apply A a b) := by
  cases op with
  | geometric | contract | inner =>
    exact (Multivector.product_fails (fun _ => id) _ _ (Multivector.requirePlain_fails left)
      (Multivector.requirePlain_fails right)).unrefused
  | divide =>
    refine (Multivector.divide_refuses left right ordered).mono fun refusal refused => ?_
    rcases refused with ⟨rfl, nonscalar⟩ | scalar
    · exact .inl (.divide nonscalar)
    · exact .inr ⟨rfl, scalar⟩

/-- A combination of two operands has nothing deferred. -/
theorem VariadicOp.isPlain_combine {op : VariadicOp} (made : op.combine A a b = .ok c) :
    c.isPlain = true := by
  cases op with
  | sum => exact Multivector.isPlain_add made
  | wedge => exact Multivector.isPlain_product made

/-- Operators of any number of operands fail mechanically, or as an operand does where it has to be
plain. -/
theorem VariadicOp.apply_fails {E : Error → Prop}
    (mechanical : ∀ cause, Error.Mechanical cause → E cause) (op : VariadicOp)
    {args : List Multivector} (plain : ∀ a ∈ args, FailsOnly E a.requirePlain) :
    FailsOnly E (op.apply A args) := by
  cases args with
  | nil => exact .error (mechanical _ .nothing)
  | cons first rest =>
    obtain ⟨start, others⟩ := List.forall_mem_cons.mp plain
    -- What has been combined so far is plain, like everything that is combined.
    refine .foldlM (S := fun c => FailsOnly E c.requirePlain) (fun b inside a left => ⟨?_, fun c made =>
      Multivector.requirePlain_fails (isPlain_combine made)⟩) start
    cases op with
    | sum => exact Multivector.add_fails mechanical left (others b inside)
    | wedge => exact Multivector.product_fails mechanical _ _ left (others b inside)

namespace Machine

variable {leaves : List Multivector} {m m' r : Machine} {head : Head} {i : Instruction}

/-- Taking a value from the stack fails mechanically. -/
theorem pop_fails (m : Machine) : FailsOnly Error.Mechanical m.pop := by
  rw [pop]
  split
  · exact .error .range
  · exact .ok _

/-- An operation on values with nothing deferred is refused for blades that it is not defined on, or as a
quotient by a scalar. -/
theorem perform_refuses (ordered : ∀ a ∈ m.stack, a.elements.Pairwise (· < ·))
    (plain : ∀ a ∈ m.stack, a.isPlain = true) :
    RefusesOnly (fun refusal => Refused head m.stack refusal ∨
      head = .binary .divide ∧ ∃ b ∈ m.stack.head?, b.RefusedScalar refusal)
      (perform A leaves m head) := by
  -- Every node takes plain operands, so that only what the operator refuses can fail.
  cases head with
  | input index =>
    rw [perform]
    split
    · exact .ok _
    · intro refusal failed
      cases failed
  | constant kind element => exact refusesOnly_iff.mpr <| (kind.value_fails element).bind fun _ _ => .ok _
  | unary op =>
    refine m.pop_fails.unrefused.bind ?_
    rintro ⟨arg, n⟩ popped
    obtain ⟨stack, -⟩ := pop_eq_ok popped
    have top := plain arg (by simp [stack])
    rw [stack]
    dsimp only
    -- An exponential or a logarithm looks at its argument first; other operators refuse on their own.
    split
    · rename_i function rotor
      refine ((function.requireArgument_refuses rotor top n.stack).mono fun _ => .inl).bind fun _ _ => ?_
      split
      · exact .ok _
      · rw [function.block_eq]
        exact .ok _
    · rename_i symbolic
      exact ((op.apply_refuses symbolic (ordered arg (by simp [stack])) top n.stack).mono
        fun _ => .inl).bind fun _ _ => .ok _
  | binary op =>
    -- The divisor is the top of the stack.
    refine m.pop_fails.unrefused.bind ?_
    rintro ⟨right, n⟩ first
    refine n.pop_fails.unrefused.bind ?_
    rintro ⟨left, n'⟩ second
    obtain ⟨stack, -⟩ := pop_eq_ok first
    rw [(pop_eq_ok second).1] at stack
    rw [stack] at ordered plain ⊢
    refine ((op.apply_refuses (plain left (by simp)) (plain right (by simp)) (ordered right (by simp))
      n'.stack).mono fun refusal refused => ?_).bind fun _ _ => .ok _
    rcases refused with blades | ⟨rfl, scalar⟩
    · exact .inl blades
    · exact .inr ⟨rfl, right, rfl, scalar⟩
  | variadic op count =>
    have operands : ∀ a ∈ (m.popOperands count).1, FailsOnly Error.Mechanical a.requirePlain :=
      fun a inside => Multivector.requirePlain_fails
        (plain a (List.mem_of_mem_take (List.mem_reverse.mp inside)))
    exact (op.apply_fails (fun _ => id) operands).unrefused.bind fun _ _ => .ok _
  | component element =>
    refine m.pop_fails.unrefused.bind ?_
    rintro ⟨arg, n⟩ popped
    exact (arg.extract_fails element).unrefused.bind fun _ _ => .ok _

/-- An operation that does not stand alone gives a value with nothing deferred. -/
theorem Performed.plain (given : ∀ a ∈ leaves, a.isPlain = true)
    (plain : ∀ a ∈ m.stack, a.isPlain = true) (together : head.standsAlone = false)
    (performed : m.Performed A leaves head a r) : a.isPlain = true := by
  -- A deferred operation would stand alone, which was excluded.
  cases performed with
  | input found => exact given _ (List.mem_of_getElem? found)
  | constant value => exact (ConstantKind.material value).plain
  | @unary op arg value rest stack symbolic applied =>
    cases op with
    | reverse => exact Multivector.isPlain_reverse applied
    | dual => exact Multivector.isPlain_dual applied
    | sqrt | sin | cos | tan | exp | log => cases together
  | known => rfl
  | block stack rotor accepted nonzero made =>
    rw [RotorFunction.block_eq] at made
    cases made
    rfl
  | @binary op left right value rest stack applied =>
    cases op with
    | geometric | contract | inner => exact Multivector.isPlain_product applied
    | divide => cases together
  | @variadic op count value applied =>
    refine op.holds_of_apply (fun _ _ => VariadicOp.isPlain_combine) (fun a inside => ?_) applied
    exact plain a (List.mem_of_mem_take (List.mem_reverse.mp inside))
  | component stack extracted =>
    rw [Multivector.isPlain_extract extracted]
    exact plain _ (by simp [stack])

/-- An atom pushes a material value, or a multiple of a leaf. -/
theorem Performed.material_or_leaf (performs : i.action = .perform head) (atom : i.isAtom = true)
    (performed : m.Performed A leaves head a r) (scaled : a.scale i.scale = .ok b) :
    b.Material ∨ i.PushesLeaf leaves b := by
  cases performed with
  | input found => exact .inr ⟨_, _, performs, found, scaled⟩
  | constant value => exact .inl ((ConstantKind.material value).scale scaled)
  | unary | known | block | binary | variadic | component =>
    simp [Instruction.isAtom, performs] at atom

/-- A machine behind its last instruction: nothing on the stack is deferred, but for the result of an
operation that stands alone, and what an atom has pushed is material, unless it is a leaf. -/
structure Settled (leaves : List Multivector) (last : Option Instruction) (m : Machine) : Prop where
  built : m.Built fun _ => True
  temporaries : ∀ a ∈ m.temporaries, a.Material
  below : ∀ a ∈ m.stack.tail, a.isPlain = true
  top : (∀ j ∈ last, j.standsAlone = false) → ∀ a ∈ m.stack.head?, a.isPlain = true
  atom : ∀ j ∈ last, j.isAtom = true → ∀ a ∈ m.stack.head?, a.Material ∨ j.PushesLeaf leaves a

variable {last : Option Instruction}

/-- Where the result of what stands alone is stored, any other instruction meets nothing deferred. -/
theorem Settled.plain (settled : m.Settled leaves last)
    (stored : ∀ j ∈ last, j.standsAlone = true → i = Instruction.store) (other : i.action ≠ .store) :
    ∀ a ∈ m.stack, a.isPlain = true := by
  -- Whatever stood alone would have been followed by a store.
  have together : ∀ j ∈ last, j.standsAlone = false := by
    intro j inside
    by_contra alone
    rw [stored j inside (by simpa using alone)] at other
    exact other rfl
  have top := settled.top together
  have below := settled.below
  cases stack : m.stack with
  | nil => exact fun a inside => absurd inside List.not_mem_nil
  | cons first rest =>
    rw [stack] at top below
    exact List.forall_mem_cons.mpr ⟨top first rfl, below⟩

/-- An instruction keeps a machine settled, if the result of what stands alone is stored. -/
theorem Settled.step (settled : m.Settled leaves last) (given : ∀ a ∈ leaves, a.IsLeaf)
    (stored : ∀ j ∈ last, j.standsAlone = true → i = Instruction.store)
    (made : m.step A leaves i = .ok m') : m'.Settled leaves (some i) := by
  have stepped := stepped_of_ok made
  have built : m'.Built fun _ => True :=
    stepped.built ⟨trivial, fun _ _ _ => trivial, fun _ => trivial⟩ trivial trivial
      (fun a inside => (given a inside).built) settled.built fun _ _ _ => trivial
  have plain := settled.plain stored
  -- What may stand alone is on top at most, and only until it is stored.
  cases stepped with
  | operand marks =>
    have values := plain (by simp [marks])
    refine ⟨built, settled.temporaries, settled.below,
      fun _ a inside => values a (List.mem_of_mem_head? inside), fun j same atom => ?_⟩
    obtain rfl := Option.mem_some_iff.mp same
    simp [Instruction.isAtom, marks] at atom
  | load loads found scaled =>
    -- A temporary is a reference, so that its multiple is material.
    have value := (settled.temporaries _ (List.mem_of_getElem? found)).scale scaled
    refine ⟨built, settled.temporaries, plain (by simp [loads]), fun _ a inside => ?_,
      fun _ _ _ a inside => ?_⟩
    · exact Option.mem_some_iff.mp inside ▸ value.plain
    · exact .inl (Option.mem_some_iff.mp inside ▸ value)
  | @perform head a b r performs performed scaled =>
    have values := plain (by simp [performs])
    obtain ⟨below, same⟩ := performed.stack_suffix
    refine ⟨built, same ▸ settled.temporaries, fun c inside => values c (below.subset inside),
      fun together c inside => ?_, fun j last atom c inside => ?_⟩
    · obtain rfl := Option.mem_some_iff.mp inside
      have alone := together i rfl
      rw [Instruction.standsAlone, performs] at alone
      exact Multivector.isPlain_scale (performed.plain (fun a leaf => (given a leaf).isPlain) values alone)
        scaled
    · obtain rfl := Option.mem_some_iff.mp inside
      obtain rfl := Option.mem_some_iff.mp last
      exact performed.material_or_leaf performs atom scaled
  | @store a reference rest stores stack named =>
    -- What is below the value that is stored has nothing deferred, and nor has the reference to it.
    have below := settled.below
    rw [stack] at below
    have ordered := (settled.built.stack a (by simp [stack])).ordered
    obtain rfl := Except.ok.inj ((Multivector.ofElements_eq_fresh ordered).symm.trans named)
    refine ⟨built, fun b inside => ?_, fun b inside => below b (List.mem_of_mem_tail inside),
      fun _ b inside => below b (List.mem_of_mem_head? inside), fun j last atom => ?_⟩
    · rcases List.mem_append.mp inside with old | new
      · exact settled.temporaries b old
      · obtain rfl := List.mem_singleton.mp new
        exact Multivector.material_fresh ordered
    · obtain rfl := Option.mem_some_iff.mp last
      simp [Instruction.isAtom, stores] at atom

/-- A machine that fails gets to the instruction that fails. -/
theorem exists_of_run_error {is : List Instruction} {cause : Error} : ∀ {m : Machine},
    m.run A leaves is = .error cause → ∃ before i after n, is = before ++ i :: after ∧
      m.run A leaves before = .ok n ∧ n.step A leaves i = .error cause := by
  induction is with
  | nil =>
    -- No instructions do not fail.
    intro m failed
    cases failed
  | cons i is ih =>
    intro m failed
    rw [run_cons] at failed
    rcases Result.bind_eq_error.mp failed with own | ⟨n, step, later⟩
    · exact ⟨[], i, is, m, rfl, rfl, own⟩
    · obtain ⟨before, j, after, n', rfl, run, own⟩ := ih later
      refine ⟨i :: before, j, after, n', rfl, ?_, own⟩
      rw [run_cons, step]
      exact run

/-- Instructions that move values refuse nothing, and others what their operation refuses. -/
theorem step_refuses {P : Head → DomainError → Prop} {refusal : DomainError}
    (refuses : ∀ head, i.action = .perform head → RefusesOnly (P head) (perform A leaves m head))
    (failed : m.step A leaves i = .error (.domain refusal)) :
    ∃ head, i.action = .perform head ∧ P head refusal := by
  -- The multiplier of an instruction is applied without a refusal.
  have pushed (P : DomainError → Prop) (n : Machine) (a : Multivector) :
      RefusesOnly P (n.push a i.scale) := (a.scale_fails _).unrefused.bind fun _ _ => .ok _
  cases action : i.action with
  | operand length =>
    simp only [step, action] at failed
    cases failed
  | store =>
    simp only [step, action] at failed
    have unrefused : RefusesOnly (fun _ => False) m.store := by
      refine m.pop_fails.unrefused.bind ?_
      rintro ⟨a, n⟩ -
      exact (collate_fails _ _ _).unrefused.bind fun _ _ => .ok _
    exact (unrefused refusal failed).elim
  | load index =>
    simp only [step, action] at failed
    split at failed
    · exact (pushed (fun _ => False) m _ refusal failed).elim
    · cases failed
  | perform head =>
    simp only [step, action] at failed
    -- Only the operation itself refuses.
    refine ⟨head, rfl, (refuses head action).bind ?_ refusal failed⟩
    rintro ⟨a, n⟩ -
    exact pushed _ n a

section Isolated

variable {is : List Instruction} {id : Nat}

/-- What follows an instruction that stands alone is a store. -/
theorem stored_of_isolated
    (isolated : ∀ before i after, is = before ++ i :: after → Code.Isolated before i after)
    {before after : List Instruction} (split : is = before ++ i :: after) :
    ∀ j ∈ before.getLast?, j.standsAlone = true → i = Instruction.store := by
  intro j last alone
  obtain ⟨earlier, rfl⟩ := List.getLast?_eq_some_iff.mp last
  obtain ⟨⟨later, next⟩, -⟩ := isolated earlier j (i :: after) (by simpa using split) alone
  exact (List.cons.inj next).1

/-- A machine is settled as far as it gets through isolated instructions. -/
theorem settled_of_run (given : ∀ a ∈ leaves, a.IsLeaf)
    (isolated : ∀ before i after, is = before ++ i :: after → Code.Isolated before i after)
    {before after : List Instruction} (split : is = before ++ after)
    (run : (start id).run A leaves before = .ok m) : m.Settled leaves before.getLast? := by
  -- The invariant speaks of the last instruction, of which isolation says what follows.
  refine holds_of_run (P := fun is n => n.Settled leaves is.getLast?) ?_ ?_ run
  · exact ⟨⟨by simp [start], by simp [start]⟩, by simp [start], by simp [start], by simp [start],
      by simp⟩
  · intro earlier i later n n' inner settled step
    rw [inner, List.append_assoc, List.cons_append] at split
    rw [List.getLast?_concat]
    exact settled.step given (stored_of_isolated isolated split) step

/-- An operation among isolated instructions meets nothing deferred, and refuses nothing but blades that
it is not defined on and leaves that are polynomials. -/
theorem perform_of_run (given : ∀ a ∈ leaves, a.IsLeaf)
    (isolated : ∀ before i after, is = before ++ i :: after → Code.Isolated before i after)
    {before after : List Instruction} (split : is = before ++ i :: after)
    (run : (start id).run A leaves before = .ok m) (performs : i.action = .perform head) :
    (∀ a ∈ m.stack, a.isPlain = true) ∧
      RefusesOnly (fun refusal => Refused head m.stack refusal ∨
        RefusedLeaf leaves before head m.stack refusal) (perform A leaves m head) := by
  have settled := settled_of_run given isolated split run
  have plain := settled.plain (stored_of_isolated isolated split) (by simp [performs])
  refine ⟨plain, (perform_refuses (fun a inside => (settled.built.stack a inside).ordered)
    plain).mono fun refusal refused => refused.imp_right ?_⟩
  rintro ⟨rfl, divisor, top, scalar⟩
  -- The divisor is what the atom in front of the quotient has pushed.
  have alone : i.standsAlone = true := by
    rw [Instruction.standsAlone, performs]
    rfl
  obtain ⟨earlier, j, rfl, atom⟩ := (isolated before i after split alone).2 performs
  rcases settled.atom j (by simp) atom divisor top with material | pushes
  · exact absurd scalar material.atomic.not_refusedScalar
  · obtain ⟨rest, stack⟩ := List.head?_eq_some_iff.mp top
    rw [stack]
    exact .divide (by simp) pushes scalar

end Isolated

end Machine

end Clifford
