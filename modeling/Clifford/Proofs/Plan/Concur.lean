import Clifford.Proofs.Code.Inspection
import Clifford.Proofs.Multivector.Concur
import Clifford.Proofs.Plan.Simulation

/-! Two machines that run code with different temporaries: what they push corresponds, up to a renaming
of ids, where the values that they load do. -/

namespace Clifford

open Result (Concur)

/-- An operation on values of a space: an input is one of some leaves, and the blade of a constant lies
in the space. -/
def Head.InSpace (dim leafCount : Nat) : Head → Prop
  | .input index => index < leafCount
  | .constant kind element => kind = .basis → element < dim
  | _ => True

/-- A renaming that keeps the order of ids, the ids of constants, and the leaves. -/
structure Relabels (A : Algebra) (symbols : List Multivector) (rel : Nat → Nat → Prop) : Prop where
  keeps : KeepsOrder rel
  pi : rel piId piId
  e : rel eId eId
  leaf : ∀ a ∈ symbols, a.Renamed A.dim rel a

section Operators

variable {A : Algebra} {symbols : List Multivector} {rel : Nat → Nat → Prop} {a b c d : Multivector}

/-- Constants of the space are renamed to themselves. -/
theorem ConstantKind.value_concur (relabels : Relabels A symbols rel) {kind : ConstantKind}
    {element : Nat} (inside : kind = .basis → element < A.dim) :
    Concur (Multivector.Renamed A.dim rel) (kind.value element) (kind.value element) := by
  -- An indeterminate for a constant keeps its id.
  have symbol {id : Nat} (kept : rel id id) : Concur (Multivector.Renamed A.dim rel)
      (Multivector.indeterminate id 0 1 1) (Multivector.indeterminate id 0 1 1) := by
    rw [Multivector.indeterminate, if_neg one_ne_zero]
    refine (Concur.same (R := fun _ _ => True) (fun _ => totalDegree_error) fun _ _ => trivial).bind
      fun _ _ _ => .ok ⟨.cons ⟨rfl, A.dim_pos, .cons ⟨rfl, .cons ⟨kept, rfl⟩ .nil⟩ .nil⟩ .nil,
        List.pairwise_singleton _ _, rfl, rfl⟩
  cases kind with
  | zero => exact .ok ⟨.nil, .nil, rfl, rfl⟩
  | basis =>
    refine .ok ⟨.cons ⟨rfl, inside rfl, .cons ⟨rfl, .nil⟩ .nil⟩ .nil, List.pairwise_singleton _ _,
      rfl, rfl⟩
  | pi => exact symbol relabels.pi
  | e => exact symbol relabels.e

/-- Polynomial operators of one operand concur under renamings. -/
theorem UnaryOp.apply_concur (keeps : KeepsOrder rel) {op : UnaryOp}
    (polynomial : op.isTranscendental = false) (renamed : a.Renamed A.dim rel b) :
    Concur (Multivector.Renamed A.dim rel) (op.apply A a) (op.apply A b) := by
  -- Only reversal and dual are polynomial.
  cases op with
  | reverse => exact renamed.reverse
  | dual =>
    rw [A.dim_eq_two_pow] at renamed ⊢
    exact renamed.dual keeps
  | _ => cases polynomial

/-- Products of two operands concur under renamings. -/
theorem BinaryOp.apply_concur (keeps : KeepsOrder rel) {op : BinaryOp} (product : op ≠ .divide)
    (left : a.Renamed A.dim rel b) (right : c.Renamed A.dim rel d) :
    Concur (Multivector.Renamed A.dim rel) (op.apply A a c) (op.apply A b d) := by
  cases op with
  | divide => exact absurd rfl product
  | _ => exact BladeProduct.product_concur keeps left right

/-- Operators of any number of operands concur under renamings. -/
theorem VariadicOp.apply_concur (keeps : KeepsOrder rel) {op : VariadicOp} {as bs : List Multivector}
    (renamed : List.Forall₂ (Multivector.Renamed A.dim rel) as bs) (nonempty : as ≠ []) :
    Concur (Multivector.Renamed A.dim rel) (op.apply A as) (op.apply A bs) := by
  obtain _ | ⟨first, rest⟩ := renamed
  · exact absurd rfl nonempty
  · -- The operands are combined from the left, and every partial result corresponds.
    refine Concur.foldlM rest (fun a b next c d so => ?_) first
    cases op with
    | sum => exact so.add keeps next
    | wedge => exact BladeProduct.product_concur keeps so next

end Operators

namespace Machine

variable {A : Algebra} {symbols : List Multivector} {rel : Nat → Nat → Prop} {m m' : Machine}
  {a b : Multivector} {as bs : List Multivector}

/-- A machine with values pushed in order. -/
def pushed (m : Machine) (values : List Multivector) : Machine :=
  { m with stack := values.reverse ++ m.stack }

theorem pushed_append (as bs : List Multivector) : (m.pushed as).pushed bs = m.pushed (as ++ bs) := by
  simp [pushed]

/-- All values are popped as operands. -/
theorem popOperands_pushed (as : List Multivector) :
    (m.pushed as).popOperands as.length = (as, m) := by
  -- There are as many values as are asked for.
  have depth : available (m.pushed as).stack.length as.length = as.length :=
    if_pos (by simp [pushed])
  rw [popOperands, depth]
  simp [pushed]

/-- An operator of one operand is applied to the value on top, unless it is left to a step. -/
theorem perform_unary {op : UnaryOp} (symbolic : RotorFunction.ofUnaryOp? op = none) :
    perform A symbols (m.pushed [a]) (.unary op) = op.apply A a >>= fun value => .ok (value, m) := by
  cases op with
  | exp => cases symbolic
  | log => cases symbolic
  | _ => rfl

/-- An exponential or logarithm of the value on top is left to a step. -/
theorem perform_function {op : UnaryOp} {function : RotorFunction}
    (rotor : RotorFunction.ofUnaryOp? op = some function) :
    perform A symbols (m.pushed [a]) (.unary op) = m.applyFunction A function a := by
  cases op with
  | exp => cases rotor; rfl
  | log => cases rotor; rfl
  | _ => cases rotor

/-- An operator of two operands is applied to the two values on top. -/
theorem perform_binary {op : BinaryOp} : perform A symbols (m.pushed [a, b]) (.binary op) =
    op.apply A a b >>= fun value => .ok (value, m) := rfl

/-- An operator of several operands is applied to as many values. -/
theorem perform_variadic {op : VariadicOp} :
    perform A symbols (m.pushed as) (.variadic op as.length) =
      op.apply A as >>= fun value => .ok (value, m) := by
  rw [perform, popOperands_pushed]
  rfl

/-- Operations that do not stand alone give renamed values from renamed operands. -/
theorem perform_concur (relabels : Relabels A symbols rel) {head : Head}
    (inSpace : head.InSpace A.dim symbols.length) (together : head.standsAlone = false)
    (operated : head.isOperator = true → as ≠ []) (count : as.length = head.arity)
    (values : List.Forall₂ (Multivector.Renamed A.dim rel) as bs) :
    Concur (fun r r' => r.1.Renamed A.dim rel r'.1 ∧ r.2 = m ∧ r'.2 = m')
      (perform A symbols (m.pushed as) head) (perform A symbols (m'.pushed bs) head) := by
  -- Every operation takes as many values as it has operands, and gives one that corresponds.
  have keeps := relabels.keeps
  cases head with
  | input index =>
    obtain rfl := List.length_eq_zero_iff.mp count
    cases values
    have known : symbols[index]? = some symbols[index] := List.getElem?_eq_getElem inSpace
    rw [perform, perform, known]
    exact .ok ⟨relabels.leaf _ (List.getElem_mem _), rfl, rfl⟩
  | constant kind element =>
    obtain rfl := List.length_eq_zero_iff.mp count
    cases values
    exact (ConstantKind.value_concur relabels inSpace).bind fun _ _ value => .ok ⟨value, rfl, rfl⟩
  | unary op =>
    obtain ⟨a, rfl⟩ := List.length_eq_one_iff.mp count
    obtain _ | ⟨first, _ | _⟩ := values
    -- Exponentials and logarithms stand alone, so that this operator is applied symbolically.
    have symbolic : RotorFunction.ofUnaryOp? op = none := by
      cases op <;> first | rfl | cases together
    rw [perform_unary symbolic, perform_unary symbolic]
    exact (UnaryOp.apply_concur keeps together first).bind fun _ _ value => .ok ⟨value, rfl, rfl⟩
  | binary op =>
    obtain ⟨a, c, rfl⟩ := List.length_eq_two.mp count
    obtain _ | ⟨first, _ | ⟨second, _ | _⟩⟩ := values
    -- Quotients stand alone as well.
    have product : op ≠ .divide := by
      rintro rfl
      cases together
    rw [perform_binary, perform_binary]
    exact (BinaryOp.apply_concur keeps product first second).bind fun _ _ value =>
      .ok ⟨value, rfl, rfl⟩
  | variadic op arity =>
    obtain rfl : as.length = arity := count
    have same := values.length_eq
    rw [perform_variadic, same, perform_variadic]
    exact (VariadicOp.apply_concur keeps values (operated rfl)).bind fun _ _ value =>
      .ok ⟨value, rfl, rfl⟩
  | component element =>
    obtain ⟨a, rfl⟩ := List.length_eq_one_iff.mp count
    obtain _ | ⟨first, _ | _⟩ := values
    exact (first.extract element).bind fun _ _ value => .ok ⟨value, rfl, rfl⟩

/-- A load pushes a multiple of a temporary. -/
theorem run_load {index : Nat} (temporary : m.temporaries[index]? = some a) {checksum : Nat} {q : Rat} :
    m.run A symbols [⟨checksum, q, .load index⟩] = a.scale q >>= fun b => .ok (m.pushed [b]) := by
  -- The temporary is found, so that only its multiplier can fail.
  rw [run_single, step]
  dsimp only
  rw [temporary]
  rfl

/-- The value of the temporary that a stem is loaded from. -/
def held (shared : List Code) (temporaries : List Multivector) (stem : Code) : Option Multivector :=
  (shared.idxOf? stem).bind fun index => temporaries[index]?

variable {shared shared' : List Code} {ts ts' : List Multivector}

/-- A stem that two programs compute in place, which does not stand alone then, or that both load with
values that correspond. -/
inductive HeldAlike (dim : Nat) (rel : Nat → Nat → Prop) (shared : List Code)
    (ts : List Multivector) (shared' : List Code) (ts' : List Multivector) (stem : Code) : Prop
  | inPlace (outside : stem ∉ shared) (outside' : stem ∉ shared')
      (together : stem.head.standsAlone = false) : HeldAlike dim rel shared ts shared' ts' stem
  | loaded {a b : Multivector} (first : held shared ts stem = some a)
      (second : held shared' ts' stem = some b) (renamed : a.Renamed dim rel b) :
      HeldAlike dim rel shared ts shared' ts' stem

/-- Instructions that push values that correspond, on machines with given temporaries. -/
def PushAlike (A : Algebra) (symbols : List Multivector) (rel : Nat → Nat → Prop)
    (ts ts' : List Multivector) (count : Nat) (is is' : List Instruction) : Prop :=
  ∀ m m' : Machine, m.temporaries = ts → m'.temporaries = ts' →
    Concur (fun r r' => ∃ as bs, as.length = count ∧
      List.Forall₂ (Multivector.Renamed A.dim rel) as bs ∧ r = m.pushed as ∧ r' = m'.pushed bs)
      (m.run A symbols is) (m'.run A symbols is')

/-- Operands push values that correspond, one after the other, if each of them does. -/
theorem pushAlike_operands (marked : Bool) (head : Head) {operands : List Code}
    (each : ∀ code ∈ operands, ∀ divisor,
      (∀ s ∈ Code.candidates divisor code, HeldAlike A.dim rel shared ts shared' ts' s) →
        PushAlike A symbols rel ts ts' 1 (Code.emit shared divisor code)
          (Code.emit shared' divisor code)) : ∀ position,
    (∀ s ∈ Code.candidatesOf head position operands, HeldAlike A.dim rel shared ts shared' ts' s) →
      PushAlike A symbols rel ts ts' operands.length
        (Code.joinOperands marked (Code.emitOperands shared head position operands))
        (Code.joinOperands marked (Code.emitOperands shared' head position operands)) := by
  -- The values of the first operand lie below those of the others.
  induction operands with
  | nil => exact fun _ _ m m' _ _ => .ok ⟨[], [], rfl, .nil, rfl, rfl⟩
  | cons code rest ih =>
    intro position alike m m' same same'
    rw [Code.candidatesOf] at alike
    rw [Code.emitOperands, Code.emitOperands, run_joinOperands, run_joinOperands]
    refine (each code (by simp) _ (fun s inside => alike s (List.mem_append_left _ inside)) m m' same
      same').bind ?_
    rintro _ _ ⟨as, bs, single, values, rfl, rfl⟩
    refine (ih (fun c inside => each c (List.mem_cons_of_mem _ inside)) _
      (fun s inside => alike s (List.mem_append_right _ inside)) (m.pushed as) (m'.pushed bs) same
      same').imp ?_
    rintro _ _ ⟨cs, ds, count, others, rfl, rfl⟩
    exact ⟨as ++ cs, bs ++ ds, by rw [List.length_append, single, count, List.length_cons,
      Nat.add_comm], List.rel_append values others, pushed_append _ _, pushed_append _ _⟩

/-- The root of a tree that does not stand alone is performed alike on values that correspond. -/
theorem run_instruction_concur (relabels : Relabels A symbols rel) {code : Code}
    (wellFormed : code.WellFormed) (inSpace : code.head.InSpace A.dim symbols.length)
    (together : code.head.standsAlone = false) (count : as.length = code.operands.length)
    (values : List.Forall₂ (Multivector.Renamed A.dim rel) as bs) :
    Concur (fun r r' => ∃ a b, a.Renamed A.dim rel b ∧ r = m.pushed [a] ∧ r' = m'.pushed [b])
      ((m.pushed as).run A symbols [code.instruction])
      ((m'.pushed bs).run A symbols [code.instruction]) := by
  -- An operator has operands, since the tree is well-formed.
  have operated (operator : code.head.isOperator = true) : as ≠ [] := by
    rintro rfl
    exact wellFormed.operated operator (List.length_eq_zero_iff.mp count.symm)
  have performed := @perform_concur A symbols rel m m' as bs relabels code.head inSpace together
    operated (count.trans wellFormed.count) values
  have stepped : Concur (fun r r' => ∃ a b, a.Renamed A.dim rel b ∧ r = m.pushed [a] ∧
      r' = m'.pushed [b]) ((m.pushed as).step A symbols code.instruction)
      ((m'.pushed bs).step A symbols code.instruction) := by
    refine performed.bind ?_
    rintro ⟨a, _⟩ ⟨b, _⟩ ⟨value, rfl, rfl⟩
    exact (value.scale code.scale).bind fun c d scaled => .ok ⟨c, d, scaled, rfl, rfl⟩
  exact stepped.bind fun _ _ done => .ok done

/-- A whole tree that does not stand alone pushes values that correspond. -/
theorem pushAlike_emitWhole (relabels : Relabels A symbols rel) {code : Code}
    (wellFormed : code.WellFormed) (inSpace : code.head.InSpace A.dim symbols.length)
    (together : code.head.standsAlone = false)
    (operands : PushAlike A symbols rel ts ts' code.operands.length
      (Code.joinOperands code.head.marksOperands
        (Code.emitOperands shared code.head 0 code.operands))
      (Code.joinOperands code.head.marksOperands
        (Code.emitOperands shared' code.head 0 code.operands))) :
    PushAlike A symbols rel ts ts' 1 (Code.emitWhole shared code)
      (Code.emitWhole shared' code) := by
  -- The operands leave values that correspond, on which the root is performed.
  intro m m' same same'
  rw [Code.emitWhole, Code.emitWhole, run_append, run_append]
  refine (operands m m' same same').bind ?_
  rintro _ _ ⟨as, bs, count, values, rfl, rfl⟩
  refine (run_instruction_concur relabels wellFormed inSpace together count values).imp ?_
  rintro _ _ ⟨a, b, value, rfl, rfl⟩
  exact ⟨[a], [b], rfl, .cons value .nil, rfl, rfl⟩

/-- Code pushes values that correspond, if the stems that can be shared in it are held alike. -/
theorem pushAlike_emit (relabels : Relabels A symbols rel) (code : Code) : ∀ divisor,
    code.WellFormed → code.Every (fun c => c.head.InSpace A.dim symbols.length) →
    (∀ s ∈ Code.candidates divisor code, HeldAlike A.dim rel shared ts shared' ts' s) →
      PushAlike A symbols rel ts ts' 1 (Code.emit shared divisor code)
        (Code.emit shared' divisor code) := by
  -- By induction on the tree, which both programs load or both compute in place.
  induction code using Code.induction with
  | node head scale operands ih =>
    intro divisor wellFormed every alike
    have parts := wellFormed.parts
    obtain ⟨inSpace, below⟩ := every
    have whole (together : head.standsAlone = false)
        (inside : ∀ s ∈ Code.candidatesOf head 0 operands,
          HeldAlike A.dim rel shared ts shared' ts' s) :=
      pushAlike_emitWhole relabels wellFormed inSpace together
        (pushAlike_operands head.marksOperands head (fun c member d known =>
          ih c member d (parts c member) (below c member) known) 0 inside)
    have deeper : ∀ s ∈ Code.candidatesOf head 0 operands,
        HeldAlike A.dim rel shared ts shared' ts' s := fun s inside => alike s (by
      rw [Code.candidates]
      exact List.mem_append_left _ inside)
    rw [Code.emit_eq, Code.emit_eq, Code.loaded, Code.loaded]
    by_cases shareable : (Code.node head scale operands).isCandidate divisor = true
    · rw [if_pos shareable, if_pos shareable]
      cases alike _ (Code.stem_mem_candidates shareable) with
      | inPlace outside outside' together =>
        rw [List.idxOf?_eq_none_iff.mpr outside, List.idxOf?_eq_none_iff.mpr outside']
        exact whole together deeper
      | loaded first second renamed =>
        obtain ⟨i, found, temporary⟩ := Option.bind_eq_some_iff.mp first
        obtain ⟨i', found', temporary'⟩ := Option.bind_eq_some_iff.mp second
        rw [found, found']
        rintro m m' rfl rfl
        rw [run_load temporary, run_load temporary']
        exact (renamed.scale scale).bind fun c d scaled =>
          .ok ⟨[c], [d], rfl, .cons scaled .nil, rfl, rfl⟩
    · rw [if_neg shareable, if_neg shareable]
      refine whole ?_ deeper
      -- What stands alone is an operator.
      rw [Code.isCandidate, Bool.or_eq_true, not_or] at shareable
      cases head <;> first | rfl | exact absurd rfl shareable.1

/-- A machine with the same values, that has used up to a number of ids. -/
structure Advances (width : Nat) (m r : Machine) : Prop where
  stack : r.stack = m.stack
  temporaries : r.temporaries = m.temporaries
  first : m.nextId ≤ r.nextId
  last : r.nextId ≤ m.nextId + width

/-- Nothing has happened to a machine. -/
theorem Advances.rfl {width : Nat} : m.Advances width m :=
  ⟨.refl _, .refl _, le_rfl, Nat.le_add_right _ _⟩

/-- A function that takes an argument takes what it is renamed from. -/
theorem requireArgument_eq (renamed : a.Renamed A.dim rel b) (function : RotorFunction) :
    function.requireArgument a = function.requireArgument b := by
  -- The check looks at what is deferred and at the blades, which are the same.
  rw [RotorFunction.requireArgument.eq_def, RotorFunction.requireArgument.eq_def, renamed.left,
    renamed.right, renamed.elements_eq, renamed.isZero_eq]

/-- The blades that a function reaches increase in the space. -/
theorem sameBlades_block (function : RotorFunction) (dim i j : Nat) :
    (Multivector.fresh i (function.blades dim)).SameBlades dim
      (.fresh j (function.blades dim)) := by
  refine ⟨by simp, by simpa using function.pairwise_blades dim, fun e inside => ?_⟩
  rw [Multivector.elements_fresh] at inside
  exact List.mem_range.mp (List.mem_of_mem_filter inside)

/-- A function that is left to a step takes what its argument is renamed from. -/
theorem applyFunction_follows (renamed : a.Renamed A.dim rel b) {function : RotorFunction}
    {d : Multivector} {r' : Machine} (made : m'.applyFunction A function b = .ok (d, r')) :
    ∃ c r, m.applyFunction A function a = .ok (c, r) ∧ c.SameBlades A.dim d ∧
      m.Advances A.dim r ∧ m'.Advances A.dim r' := by
  -- The argument is accepted alike; the result is one, or fresh on the same blades.
  obtain ⟨u, required, rest⟩ := Result.bind_eq_ok.mp made
  rw [applyFunction, requireArgument_eq renamed, required, Result.ok_bind, renamed.isZero_eq]
  split at rest
  · rename_i zero
    cases rest
    rw [if_pos zero]
    exact ⟨_, _, rfl, Multivector.sameBlades_basis A.dim_pos 1, .rfl, .rfl⟩
  · rename_i nonzero
    rw [function.block_eq, Result.ok_bind] at rest
    cases rest
    rw [if_neg nonzero, function.block_eq, Result.ok_bind]
    refine ⟨_, _, rfl, sameBlades_block _ _ _ _, ⟨rfl, rfl, Nat.le_add_right _ _, ?_⟩,
      ⟨rfl, rfl, Nat.le_add_right _ _, ?_⟩⟩
    · exact Nat.add_le_add_left (sameBlades_block function A.dim m.nextId m.nextId).length_le _
    · exact Nat.add_le_add_left (sameBlades_block function A.dim m'.nextId m'.nextId).length_le _

/-- A transcendental function takes what its argument is renamed from. -/
theorem performFunction_follows (renamed : a.Renamed A.dim rel b) {op : UnaryOp}
    (transcendental : op.isTranscendental = true) {d : Multivector} {r' : Machine}
    (made : perform A symbols (m'.pushed [b]) (.unary op) = .ok (d, r')) :
    ∃ c r, perform A symbols (m.pushed [a]) (.unary op) = .ok (c, r) ∧ c.SameBlades A.dim d ∧
      m.Advances A.dim r ∧ m'.Advances A.dim r' := by
  -- Exponentials and logarithms are left to a step, and the others are deferred.
  cases rotor : RotorFunction.ofUnaryOp? op with
  | some function =>
    rw [perform_function rotor] at made ⊢
    exact applyFunction_follows renamed made
  | none =>
    rw [perform_unary rotor] at made ⊢
    obtain ⟨value, given, done⟩ := Result.bind_eq_ok.mp made
    cases done
    have deferred : ∃ c, op.apply A a = .ok c ∧ c.SameBlades A.dim d := by
      cases op with
      | reverse => cases transcendental
      | dual => cases transcendental
      | exp => cases rotor
      | log => cases rotor
      | _ => exact renamed.withOp A.dim_pos given
    obtain ⟨c, first, same⟩ := deferred
    exact ⟨c, m, by rw [first]; rfl, same, .rfl, .rfl⟩

end Machine

end Clifford
