import Clifford.Proofs.Plan.Concur

/-! Acceptance: where one machine computes a temporary, another one does so too, unless it overflows, if
the values that are looked at before they are used correspond. -/

namespace Clifford

open Result (Concur)

namespace Multivector.SameBlades

variable {dim : Nat} {a b : Multivector}

/-- The blades of the right one of two multivectors on the same blades. -/
theorem right (same : a.SameBlades dim b) : b.SameBlades dim b := ⟨rfl, same.ordered, same.bounded⟩

/-- The blades of the left one of two multivectors on the same blades. -/
theorem left (same : a.SameBlades dim b) : a.SameBlades dim a :=
  ⟨rfl, same.elements ▸ same.ordered, same.elements ▸ same.bounded⟩

end Multivector.SameBlades

namespace Machine

variable {A : Algebra} {symbols : List Multivector} {rel : Nat → Nat → Prop} {m m' n r r' : Machine}
  {a b : Multivector} {shared shared' : List Code} {ts ts' : List Multivector} {close : Prop}

/-- Different values are pushed to different machines. -/
theorem pushed_injective {as bs : List Multivector} (same : m.pushed as = m.pushed bs) : as = bs :=
  List.reverse_injective (List.append_cancel_right (congrArg Machine.stack same))

/-- What is pushed alone by code that corresponds to itself. -/
theorem PushAlike.self {is : List Instruction} (pushes : PushAlike A symbols Eq ts ts 1 is is)
    (same : m.temporaries = ts) : m.run A symbols is = .error .quotientOverflow ∨
      ∃ a, a.Renamed A.dim Eq a ∧ m.run A symbols is = .ok (m.pushed [a]) := by
  -- A machine that is compared with itself succeeds or overflows.
  refine (pushes m m same same).of_self.imp_right ?_
  rintro ⟨r, made, as, bs, count, values, rfl, -⟩
  obtain ⟨a, rfl⟩ := List.length_eq_one_iff.mp count
  obtain _ | ⟨value, _ | _⟩ := values
  exact ⟨a, value.self_left, made⟩

/-- Values that are pushed alone by code that pushes alike correspond. -/
theorem PushAlike.pair {is is' : List Instruction} (pushes : PushAlike A symbols rel ts ts' 1 is is')
    (same : m.temporaries = ts) (same' : m'.temporaries = ts')
    (first : m.run A symbols is = .ok (m.pushed [a]))
    (second : m'.run A symbols is' = .ok (m'.pushed [b])) : a.Renamed A.dim rel b := by
  -- What is pushed is determined by the machine that results.
  obtain ⟨as, bs, count, values, left, right⟩ := (pushes m m' same same').of_ok first second
  obtain rfl := pushed_injective left
  obtain rfl := pushed_injective right
  obtain _ | ⟨value, _⟩ := values
  exact value

/-- A value has been moved into a temporary with a fresh indeterminate from an id on for each of some
increasing blades of the space. -/
structure Stores (dim : Nat) (m r : Machine) (id : Nat) (blades : List Nat) : Prop where
  stack : r.stack = m.stack
  temporaries : r.temporaries = m.temporaries ++ [.fresh id blades]
  first : m.nextId ≤ id
  next : r.nextId = id + blades.length
  last : r.nextId ≤ m.nextId + 2 * dim
  ordered : blades.Pairwise (· < ·)
  bounded : ∀ e ∈ blades, e < dim

/-- A value on top is moved into a temporary. -/
theorem run_store (advances : m.Advances A.dim n) (own : a.SameBlades A.dim a) :
    ∃ r, (n.pushed [a]).run A symbols [Instruction.store] = .ok r ∧
      m.Stores A.dim r n.nextId a.elements := by
  -- The value becomes a step, and a fresh indeterminate on each of its blades a temporary.
  have count : a.terms.length = a.elements.length := (List.length_map _).symm
  have width := own.length_le
  have last := advances.last
  refine ⟨{ n with
    temporaries := n.temporaries ++ [.fresh n.nextId a.elements]
    steps := n.steps ++ [Step.value n.nextId a]
    nextId := n.nextId + a.terms.length }, ?_, advances.stack, ?_, advances.first, ?_, ?_, own.ordered,
    own.bounded⟩
  · have named := @Multivector.ofElements_eq_fresh n.nextId _ own.ordered
    rw [run_single]
    show (a.reference n.nextId >>= _) = _
    rw [Multivector.reference, named]
    rfl
  · rw [advances.temporaries]
  · rw [count]
  · show n.nextId + a.terms.length ≤ _
    omega

/-- A tree that does not stand alone is computed into a temporary. -/
theorem stores_of_pushAlike {stem : Code}
    (own : PushAlike A symbols Eq m.temporaries m.temporaries 1 (Code.emitWhole shared stem)
      (Code.emitWhole shared stem)) :
    m.run A symbols (Code.emitTemporary shared stem) = .error .quotientOverflow ∨
      ∃ r id blades, m.run A symbols (Code.emitTemporary shared stem) = .ok r ∧
        m.Stores A.dim r id blades := by
  -- The tree is computed first and its value stored behind it.
  rw [Code.emitTemporary_eq, run_append]
  rcases own.self rfl with overflow | ⟨a, value, first⟩
  · exact .inl (by rw [overflow, Result.error_bind])
  · obtain ⟨r, stored, stores⟩ := run_store .rfl value.sameBlades
    exact .inr ⟨r, _, _, by rw [first, Result.ok_bind, stored], stores⟩

/-- Instructions compute a temporary on one machine, where they have computed one on another machine, on
the same blades in some case. -/
def StoresLike (A : Algebra) (symbols : List Multivector) (close : Prop) (m m' r' : Machine)
    (is : List Instruction) : Prop :=
  m.run A symbols is = .error .quotientOverflow ∨ ∃ r, m.run A symbols is = .ok r ∧
    ∃ id blades id' blades', m.Stores A.dim r id blades ∧ m'.Stores A.dim r' id' blades' ∧
      (close → blades = blades')

/-- A machine that overflows computes nothing more. -/
theorem StoresLike.of_overflow {is : List Instruction}
    (overflow : m.run A symbols is = .error .quotientOverflow) (js : List Instruction) :
    StoresLike A symbols close m m' r' (is ++ js) :=
  .inl (by rw [run_append, overflow, Result.error_bind])

/-- Values on top are moved into temporaries. -/
theorem storesLike_pushed {n' : Machine} {is : List Instruction}
    (first : m.run A symbols is = .ok (n.pushed [a])) (advances : m.Advances A.dim n)
    (advances' : m'.Advances A.dim n') (own : a.SameBlades A.dim a) (own' : b.SameBlades A.dim b)
    (near : close → a.elements = b.elements)
    (made : (n'.pushed [b]).run A symbols [Instruction.store] = .ok r') :
    StoresLike A symbols close m m' r' (is ++ [Instruction.store]) := by
  -- Storing does not fail, whatever is on top.
  obtain ⟨r, stored, stores⟩ := run_store advances own
  obtain ⟨s', stored', stores'⟩ := run_store advances' own'
  cases stored'.symm.trans made
  exact .inr ⟨r, by rw [run_append, first, Result.ok_bind, stored], _, _, _, _, stores, stores', near⟩

/-- A tree that does not stand alone is computed into temporaries that correspond, or into temporaries
each. -/
theorem storesLike_together {stem : Code}
    (own : PushAlike A symbols Eq m.temporaries m.temporaries 1 (Code.emitWhole shared stem)
      (Code.emitWhole shared stem))
    (own' : PushAlike A symbols Eq m'.temporaries m'.temporaries 1 (Code.emitWhole shared' stem)
      (Code.emitWhole shared' stem))
    (near : close → PushAlike A symbols rel m.temporaries m'.temporaries 1
      (Code.emitWhole shared stem) (Code.emitWhole shared' stem))
    (made : m'.run A symbols (Code.emitTemporary shared' stem) = .ok r') :
    StoresLike A symbols close m m' r' (Code.emitTemporary shared stem) := by
  rw [Code.emitTemporary_eq, run_append] at made
  obtain ⟨s', whole, store⟩ := Result.bind_eq_ok.mp made
  rw [Code.emitTemporary_eq]
  -- Each machine computes the tree by itself, and only the blades are compared.
  rcases own.self rfl with overflow | ⟨a, value, first⟩
  · exact .of_overflow overflow _
  rcases own'.self rfl with overflow | ⟨b, value', second⟩
  · cases overflow.symm.trans whole
  cases second.symm.trans whole
  exact storesLike_pushed first .rfl .rfl value.sameBlades value'.sameBlades
    (fun given => ((near given).pair rfl rfl first second).elements_eq) store

/-- The root of a stem has no multiplier. -/
theorem run_stem {head : Head} {operands : List Code} :
    m.run A symbols [(Code.node head 1 operands).instruction] =
      perform A symbols m head >>= fun made => .ok (made.2.pushed [made.1]) := by
  -- A multiplier of one leaves the value as it is.
  rw [run_single]
  show (perform A symbols m head >>= fun made => made.2.push made.1 1) = _
  refine congrArg _ (funext fun made => ?_)
  rw [push, Multivector.scale, if_pos rfl]
  rfl

/-- A function runs its argument. -/
theorem run_function {op : UnaryOp} {arg : Code} :
    m.run A symbols (Code.emitWhole shared (.node (.unary op) 1 [arg])) =
      m.run A symbols (Code.emit shared ((Head.unary op).dividesBy 0) arg) >>= fun r =>
        perform A symbols r (.unary op) >>= fun made => .ok (made.2.pushed [made.1]) := by
  -- The argument is the only operand, and it is not marked.
  rw [Code.emitWhole, run_append]
  show m.run A symbols
    (Code.joinOperands false [Code.emit shared ((Head.unary op).dividesBy 0) arg]) >>= _ = _
  rw [run_joinOperands]
  cases m.run A symbols (Code.emit shared ((Head.unary op).dividesBy 0) arg) with
  | error cause => rfl
  | ok r => exact run_stem

/-- A quotient runs its dividend and then its divisor. -/
theorem run_quotient {dividend divisor : Code} :
    m.run A symbols (Code.emitWhole shared (.node (.binary .divide) 1 [dividend, divisor])) =
      m.run A symbols (Code.emit shared ((Head.binary .divide).dividesBy 0) dividend) >>= fun r =>
        r.run A symbols (Code.emit shared ((Head.binary .divide).dividesBy 1) divisor) >>= fun r =>
          perform A symbols r (.binary .divide) >>= fun made => .ok (made.2.pushed [made.1]) := by
  -- The two operands are not marked, and the divisor comes last.
  rw [Code.emitWhole, run_append]
  show m.run A symbols (Code.joinOperands false
    [Code.emit shared ((Head.binary .divide).dividesBy 0) dividend,
      Code.emit shared ((Head.binary .divide).dividesBy 1) divisor]) >>= _ = _
  rw [run_joinOperands]
  cases m.run A symbols (Code.emit shared ((Head.binary .divide).dividesBy 0) dividend) with
  | error cause => rfl
  | ok r =>
    rw [Result.ok_bind, Result.ok_bind, run_joinOperands]
    cases r.run A symbols (Code.emit shared ((Head.binary .divide).dividesBy 1) divisor) with
    | error cause => rfl
    | ok r => exact run_stem

/-- A quotient is pushed for the values of its dividend and its divisor. -/
theorem run_quotient_of {dividend divisor : Code}
    (first : m.run A symbols (Code.emit shared ((Head.binary .divide).dividesBy 0) dividend) =
      .ok (m.pushed [a]))
    (second : (m.pushed [a]).run A symbols
      (Code.emit shared ((Head.binary .divide).dividesBy 1) divisor) = .ok (m.pushed [a, b])) :
    m.run A symbols (Code.emitWhole shared (.node (.binary .divide) 1 [dividend, divisor])) =
      a.divide b >>= fun c => .ok (m.pushed [c]) := by
  -- Both operands are on top of the stack when the quotient is performed.
  rw [run_quotient, first, Result.ok_bind, second, Result.ok_bind, perform_binary]
  show (a.divide b >>= fun value => _) >>= _ = _
  cases a.divide b <;> rfl

/-- A transcendental function takes its argument where another machine has taken one that it
corresponds to. -/
theorem storesLike_function {op : UnaryOp} (transcendental : op.isTranscendental = true) {arg : Code}
    (inspected : PushAlike A symbols rel m.temporaries m'.temporaries 1
      (Code.emit shared ((Head.unary op).dividesBy 0) arg)
      (Code.emit shared' ((Head.unary op).dividesBy 0) arg))
    (made : m'.run A symbols (Code.emitTemporary shared' (.node (.unary op) 1 [arg])) = .ok r') :
    StoresLike A symbols close m m' r' (Code.emitTemporary shared (.node (.unary op) 1 [arg])) := by
  rw [Code.emitTemporary_eq, run_append] at made
  obtain ⟨s', whole, store⟩ := Result.bind_eq_ok.mp made
  rw [run_function] at whole
  obtain ⟨t', argument, root⟩ := Result.bind_eq_ok.mp whole
  rw [Code.emitTemporary_eq]
  -- The arguments correspond, so that what one machine accepts the other one accepts.
  rcases (inspected m m' rfl rfl).of_right argument with
    overflow | ⟨t, first, as, bs, count, values, rfl, rfl⟩
  · exact .of_overflow (by rw [run_function, overflow, Result.error_bind]) _
  obtain ⟨a, rfl⟩ := List.length_eq_one_iff.mp count
  obtain _ | ⟨value, _ | _⟩ := values
  obtain ⟨⟨d, p'⟩, performed, done⟩ := Result.bind_eq_ok.mp root
  cases done
  -- The function is taken of both arguments, or known of both.
  obtain ⟨c, p, taken, same, advances, advances'⟩ :=
    performFunction_follows (m := m) value transcendental performed
  refine storesLike_pushed ?_ advances advances' same.left same.right (fun _ => same.elements) store
  rw [run_function, first, Result.ok_bind, taken]
  rfl

/-- A quotient divides by what corresponds to a divisor of another machine. -/
theorem storesLike_quotient (relabels : Relabels A symbols rel) {dividend divisor : Code}
    (own : PushAlike A symbols Eq m.temporaries m.temporaries 1
      (Code.emit shared ((Head.binary .divide).dividesBy 0) dividend)
      (Code.emit shared ((Head.binary .divide).dividesBy 0) dividend))
    (own' : PushAlike A symbols Eq m'.temporaries m'.temporaries 1
      (Code.emit shared' ((Head.binary .divide).dividesBy 0) dividend)
      (Code.emit shared' ((Head.binary .divide).dividesBy 0) dividend))
    (near : close → PushAlike A symbols rel m.temporaries m'.temporaries 1
      (Code.emit shared ((Head.binary .divide).dividesBy 0) dividend)
      (Code.emit shared' ((Head.binary .divide).dividesBy 0) dividend))
    (inspected : PushAlike A symbols rel m.temporaries m'.temporaries 1
      (Code.emit shared ((Head.binary .divide).dividesBy 1) divisor)
      (Code.emit shared' ((Head.binary .divide).dividesBy 1) divisor))
    (made : m'.run A symbols
      (Code.emitTemporary shared' (.node (.binary .divide) 1 [dividend, divisor])) = .ok r') :
    StoresLike A symbols close m m' r'
      (Code.emitTemporary shared (.node (.binary .divide) 1 [dividend, divisor])) := by
  rw [Code.emitTemporary_eq, run_append] at made
  obtain ⟨s', whole, store⟩ := Result.bind_eq_ok.mp made
  rw [run_quotient] at whole
  obtain ⟨t', left, whole⟩ := Result.bind_eq_ok.mp whole
  obtain ⟨u', right, root⟩ := Result.bind_eq_ok.mp whole
  rw [Code.emitTemporary_eq]
  -- Either machine computes its dividend by itself.
  rcases own'.self rfl with overflow | ⟨a', value', dividend'⟩
  · cases overflow.symm.trans left
  cases dividend'.symm.trans left
  rcases own.self rfl with overflow | ⟨a, value, first⟩
  · exact .of_overflow (by rw [run_quotient, overflow, Result.error_bind]) _
  -- The divisors correspond, so that what one machine divides by, the other one does, too.
  rcases (inspected (m.pushed [a]) (m'.pushed [a']) rfl rfl).of_right right with
    overflow | ⟨t, second, bs, bs', count, values, rfl, rfl⟩
  · exact .of_overflow (by rw [run_quotient, first, Result.ok_bind, overflow, Result.error_bind]) _
  obtain ⟨b, rfl⟩ := List.length_eq_one_iff.mp count
  obtain _ | ⟨divisors, _ | _⟩ := values
  rw [pushed_append, List.singleton_append] at second right
  have whole' := run_quotient_of dividend' right
  rw [run_quotient, dividend', Result.ok_bind, right, Result.ok_bind] at whole'
  rw [pushed_append, List.singleton_append, whole'] at root
  obtain ⟨c', quotient', done⟩ := Result.bind_eq_ok.mp root
  cases done
  -- The other machine has divided, so that its divisor is a single monomial, and so is the first one.
  obtain ⟨n', monomial'⟩ := Multivector.isDivisor_of_divide quotient'
  obtain ⟨n, monomial, -⟩ := divisors.isDivisor monomial'
  have own' := value'.divide keepsOrder_eq divisors.self_right monomial'
  rcases (value.divide keepsOrder_eq divisors.self_left monomial).of_self with
    overflow | ⟨c, quotient, result⟩
  · exact .of_overflow (by rw [run_quotient_of first second, overflow, Result.error_bind]) _
  -- Where the stem is near, the dividends correspond, and the quotients have the same blades.
  refine storesLike_pushed ?_ .rfl .rfl result.sameBlades
    (own'.of_ok quotient' quotient').sameBlades (fun given => ?_) store
  · rw [run_quotient_of first second, quotient, Result.ok_bind]
  · have dividends := (near given).pair rfl rfl first dividend'
    exact ((dividends.divide relabels.keeps divisors monomial').of_ok quotient quotient').elements_eq

end Machine

end Clifford
