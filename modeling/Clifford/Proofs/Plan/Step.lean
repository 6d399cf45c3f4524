import Clifford.Plan.Machine
import Clifford.Proofs.Result

/-! What one instruction can do: every way in which a machine gets to its next state. -/

namespace Clifford.Machine

variable (A : Algebra) (leaves : List Multivector)

/-- The value that an operation gives, and the machine that its operands are taken from. -/
inductive Performed (m : Machine) : Head → Multivector → Machine → Prop
  | input {index : Nat} {value : Multivector} (found : leaves[index]? = some value) :
      Performed m (.input index) value m
  | constant {kind : ConstantKind} {element : Nat} {value : Multivector}
      (given : kind.value element = .ok value) : Performed m (.constant kind element) value m
  | unary {op : UnaryOp} {arg value : Multivector} {rest : List Multivector}
      (stack : m.stack = arg :: rest) (symbolic : RotorFunction.ofUnaryOp? op = none)
      (applied : op.apply A arg = .ok value) : Performed m (.unary op) value { m with stack := rest }
  | known {op : UnaryOp} {function : RotorFunction} {arg : Multivector} {rest : List Multivector}
      (stack : m.stack = arg :: rest) (rotor : RotorFunction.ofUnaryOp? op = some function)
      (accepted : function.requireArgument arg = .ok ()) (zero : arg.isZero = true) :
      Performed m (.unary op) (.scalar 1) { m with stack := rest }
  | block {op : UnaryOp} {function : RotorFunction} {arg value : Multivector}
      {rest : List Multivector} (stack : m.stack = arg :: rest)
      (rotor : RotorFunction.ofUnaryOp? op = some function)
      (accepted : function.requireArgument arg = .ok ()) (nonzero : arg.isZero = false)
      (made : function.block A m.nextId = .ok value) :
      Performed m (.unary op) value
        { m with
          stack := rest
          steps := m.steps ++ [Step.block m.nextId function arg value.elements]
          nextId := m.nextId + value.terms.length }
  | binary {op : BinaryOp} {left right value : Multivector} {rest : List Multivector}
      (stack : m.stack = right :: left :: rest) (applied : op.apply A left right = .ok value) :
      Performed m (.binary op) value { m with stack := rest }
  | variadic {op : VariadicOp} {count : Nat} {value : Multivector}
      (applied : op.apply A (m.popOperands count).1 = .ok value) :
      Performed m (.variadic op count) value (m.popOperands count).2
  | component {element : Nat} {arg value : Multivector} {rest : List Multivector}
      (stack : m.stack = arg :: rest) (extracted : arg.extract element = .ok value) :
      Performed m (.component element) value { m with stack := rest }

/-- The machine that an instruction leads to. -/
inductive Stepped (m : Machine) (i : Instruction) : Machine → Prop
  | operand {length : Nat} (marks : i.action = .operand length) : Stepped m i m
  | load {index : Nat} {a b : Multivector} (loads : i.action = .load index)
      (found : m.temporaries[index]? = some a) (scaled : a.scale i.scale = .ok b) :
      Stepped m i { m with stack := b :: m.stack }
  | perform {head : Head} {a b : Multivector} {r : Machine} (performs : i.action = .perform head)
      (performed : m.Performed A leaves head a r) (scaled : a.scale i.scale = .ok b) :
      Stepped m i { r with stack := b :: r.stack }
  | store {a reference : Multivector} {rest : List Multivector} (stores : i.action = .store)
      (stack : m.stack = a :: rest) (named : a.reference m.nextId = .ok reference) :
      Stepped m i
        { stack := rest
          temporaries := m.temporaries ++ [reference]
          steps := m.steps ++ [Step.value m.nextId a]
          nextId := m.nextId + a.terms.length }

variable {A leaves} {m m' r : Machine} {a b : Multivector} {rest : List Multivector} {head : Head}
  {i : Instruction}

/-- The top of the stack is popped. -/
theorem pop_eq_ok (popped : m.pop = .ok (a, r)) :
    m.stack = a :: r.stack ∧ r = { m with stack := r.stack } := by
  -- An empty stack has no top.
  obtain ⟨stack, temporaries, steps, nextId⟩ := m
  cases stack with
  | nil => cases popped
  | cons top rest =>
    cases popped
    exact ⟨rfl, rfl⟩

/-- An operation that succeeds gives a value in one of these ways. -/
theorem performed_of_ok (made : perform A leaves m head = .ok (a, r)) :
    m.Performed A leaves head a r := by
  -- Each kind of node takes its operands off the stack, and then applies its operator.
  cases head with
  | input index =>
    rw [perform] at made
    split at made
    · cases made
      exact .input ‹_›
    · cases made
  | constant kind element =>
    obtain ⟨value, given, done⟩ := Result.bind_eq_ok.mp made
    cases done
    exact .constant given
  | unary op =>
    obtain ⟨⟨arg, n⟩, popped, rest⟩ := Result.bind_eq_ok.mp made
    obtain ⟨stack, same⟩ := pop_eq_ok popped
    rw [same] at rest
    dsimp only at rest
    -- An exponential or a logarithm checks its argument; for zero its value is known.
    split at rest
    · rename_i function rotor
      obtain ⟨u, accepted, rest⟩ := Result.bind_eq_ok.mp rest
      split at rest
      · rename_i zero
        cases rest
        exact .known stack rotor accepted zero
      · rename_i nonzero
        obtain ⟨value, block, done⟩ := Result.bind_eq_ok.mp rest
        cases done
        exact .block stack rotor accepted (Bool.eq_false_of_not_eq_true nonzero) block
    · rename_i symbolic
      obtain ⟨value, applied, done⟩ := Result.bind_eq_ok.mp rest
      cases done
      exact .unary stack symbolic applied
  | binary op =>
    obtain ⟨⟨right, n⟩, first, rest⟩ := Result.bind_eq_ok.mp made
    obtain ⟨⟨left, n'⟩, second, rest⟩ := Result.bind_eq_ok.mp rest
    obtain ⟨value, applied, done⟩ := Result.bind_eq_ok.mp rest
    cases done
    obtain ⟨top, same⟩ := pop_eq_ok first
    obtain ⟨next, same'⟩ := pop_eq_ok second
    rw [same', same]
    exact .binary (top.trans (by rw [next])) applied
  | variadic op count =>
    obtain ⟨value, applied, done⟩ := Result.bind_eq_ok.mp made
    cases done
    exact .variadic applied
  | component element =>
    obtain ⟨⟨arg, n⟩, popped, rest⟩ := Result.bind_eq_ok.mp made
    obtain ⟨value, extracted, done⟩ := Result.bind_eq_ok.mp rest
    cases done
    obtain ⟨stack, same⟩ := pop_eq_ok popped
    rw [same]
    exact .component stack extracted

/-- A value that is pushed has its multiplier. -/
theorem push_eq_ok {q : Rat} (pushed : m.push a q = .ok m') :
    ∃ b, a.scale q = .ok b ∧ m' = { m with stack := b :: m.stack } := by
  obtain ⟨b, scaled, done⟩ := Result.bind_eq_ok.mp pushed
  cases done
  exact ⟨b, scaled, rfl⟩

/-- An instruction that succeeds does so in one of these ways. -/
theorem stepped_of_ok (made : m.step A leaves i = .ok m') : m.Stepped A leaves i m' := by
  -- There is one case for each kind of action.
  cases action : i.action with
  | perform head =>
    simp only [step, action] at made
    obtain ⟨⟨value, r⟩, performed, pushed⟩ := Result.bind_eq_ok.mp made
    obtain ⟨b, scaled, rfl⟩ := push_eq_ok pushed
    exact .perform action (performed_of_ok performed) scaled
  | load index =>
    simp only [step, action] at made
    split at made
    · obtain ⟨b, scaled, rfl⟩ := push_eq_ok made
      exact .load action ‹_› scaled
    · cases made
  | operand length =>
    simp only [step, action] at made
    cases made
    exact .operand action
  | store =>
    simp only [step, action] at made
    obtain ⟨⟨value, n⟩, popped, rest⟩ := Result.bind_eq_ok.mp made
    obtain ⟨stack, same⟩ := pop_eq_ok popped
    -- The stored value is replaced by fresh indeterminates on its blades.
    obtain ⟨reference, named, done⟩ := Result.bind_eq_ok.mp rest
    cases done
    rw [same] at named ⊢
    exact .store action stack named

variable {is : List Instruction}

/-- The first instruction is a step, and the others run from where it leads. -/
theorem run_cons (i : Instruction) (is : List Instruction) : m.run A leaves (i :: is) =
    m.step A leaves i >>= fun next => next.run A leaves is := List.foldlM_cons

/-- Instructions run one part after the other. -/
theorem run_append (is js : List Instruction) : m.run A leaves (is ++ js) =
    m.run A leaves is >>= fun next => next.run A leaves js := List.foldlM_append

/-- A single instruction is a step. -/
theorem run_single (i : Instruction) : m.run A leaves [i] = m.step A leaves i := by
  rw [run_cons]
  cases m.step A leaves i <;> rfl

/-- What holds of a machine before its first instruction, and is kept by every one that succeeds, holds
of the machine that its instructions lead to. -/
theorem holds_of_run {P : List Instruction → Machine → Prop} (start : P [] m)
    (keeps : ∀ before i after n n', is = before ++ i :: after → P before n →
      n.step A leaves i = .ok n' → P (before ++ [i]) n')
    (made : m.run A leaves is = .ok r) : P is r := by
  -- The induction takes the last instruction off, so that what holds is known of all before it.
  induction is using List.reverseRecOn generalizing r with
  | nil =>
    cases made
    exact start
  | append_singleton is i ih =>
    rw [run_append] at made
    obtain ⟨n, first, last⟩ := Result.bind_eq_ok.mp made
    rw [run_single] at last
    refine keeps is i [] n r rfl (ih (fun before j after n n' split => ?_) first) last
    exact keeps before j (after ++ [i]) n n' (by rw [split, List.append_assoc, List.cons_append])

end Clifford.Machine
