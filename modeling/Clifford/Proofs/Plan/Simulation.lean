import Clifford.Proofs.Code.Hoisting
import Clifford.Proofs.Plan.Machine
import Clifford.Proofs.Plan.Step

/-! Runs of compiled code: a tree pushes what it computes, whether its parts are loaded or computed
anew, and a program leaves what its trees compute. -/

namespace Clifford.Machine

variable {A : Algebra} {F : Functions A.dim} {leaves : Nat → Option Dense}
  {symbols : List Multivector} {inputs : Values (Option Rat)} {ρ : Nat → Rat} {m m' : Machine}
  {stored shared : List Code} {xs ys : List Dense} {x y : Dense} {a : Multivector}

/-- Operands run one after the other, whether they are marked or not. -/
theorem run_joinOperands (marked : Bool) (first : List Instruction)
    (rest : List (List Instruction)) :
    m.run A symbols (Code.joinOperands marked (first :: rest)) =
      m.run A symbols first >>= fun next =>
        next.run A symbols (Code.joinOperands marked rest) := by
  -- A mark leaves the machine as it is.
  rw [Code.joinOperands, List.flatMap_cons, run_append, ← Code.joinOperands]
  cases marked <;> rfl

/-- The values on top of the stack are taken off as operands. -/
theorem Computes.popOperands
    (computes : m.Computes A F leaves symbols inputs ρ stored (ys.reverse ++ xs)) :
    (m.popOperands ys.length).2.Computes A F leaves symbols inputs ρ stored xs ∧
      List.Forall₂ (Multivector.Denotes F ρ m.nextId) (m.popOperands ys.length).1 ys := by
  -- The operands are on top of the stack, the last one first.
  have depth : ys.length ≤ m.stack.length := by
    rw [computes.stack.length_eq, List.length_append, List.length_reverse]
    exact Nat.le_add_right _ _
  have taken : available m.stack.length ys.length = ys.length := if_pos depth
  have top := List.forall₂_take ys.length computes.stack
  have below := List.forall₂_drop ys.length computes.stack
  rw [List.take_left' List.length_reverse] at top
  rw [List.drop_left' List.length_reverse] at below
  refine ⟨?_, ?_⟩
  · rw [Machine.popOperands, taken]
    exact ⟨below, computes.temporaries, computes.leaf, computes.steps⟩
  · rw [Machine.popOperands, taken]
    exact List.forall₂_reverse_iff.mp (by rwa [List.reverse_reverse])

/-- Taking the top of the stack off keeps the next id. -/
theorem nextId_of_pop (popped : m.pop = .ok (a, m')) : m'.nextId = m.nextId := by
  obtain ⟨_ | ⟨top, rest⟩, temporaries, steps, nextId⟩ := m <;> cases popped
  rfl

/-- An operator of one operand gives what it computes from the top of the stack. -/
theorem Computes.performUnary
    (computes : m.Computes A F leaves symbols inputs ρ stored (x :: xs)) {op : UnaryOp}
    (dense : op.dense A F x = some y)
    (made : Machine.perform A symbols m (.unary op) = .ok (a, m')) :
    ∃ ρ', m'.Computes A F leaves symbols inputs ρ' stored xs ∧ a.Denotes F ρ' m'.nextId y := by
  obtain ⟨⟨arg, next⟩, popped, rest⟩ := Result.bind_eq_ok.mp made
  obtain ⟨after, denotes, -⟩ := computes.pop popped
  dsimp only at rest
  cases rotor : RotorFunction.ofUnaryOp? op with
  | some function =>
    -- Exponentials and logarithms are left to a step.
    rw [rotor] at rest
    refine after.applyFunction denotes ?_ rest
    cases op <;> cases rotor <;> exact dense
  | none =>
    rw [rotor] at rest
    obtain ⟨value, given, done⟩ := Result.bind_eq_ok.mp rest
    cases done
    exact ⟨ρ, after, UnaryOp.denotes rotor denotes dense given⟩

/-- An operator of two operands gives what it computes from the top of the stack, where the divisor
is above the dividend. -/
theorem Computes.performBinary (diagonal : A.metric.isDiagonal = true)
    (computes : m.Computes A F leaves symbols inputs ρ stored (y :: x :: xs)) {op : BinaryOp}
    {z : Dense} (dense : op.dense A x y = some z) (units : op = .divide → m.TopHasUnits)
    (made : Machine.perform A symbols m (.binary op) = .ok (a, m')) :
    m'.Computes A F leaves symbols inputs ρ stored xs ∧ a.Denotes F ρ m'.nextId z := by
  obtain ⟨⟨right, next⟩, popped, rest⟩ := Result.bind_eq_ok.mp made
  obtain ⟨between, denotesRight, top⟩ := computes.pop popped
  obtain ⟨⟨left, later⟩, popped', rest⟩ := Result.bind_eq_ok.mp rest
  obtain ⟨after, denotesLeft, -⟩ := between.pop popped'
  obtain ⟨value, given, done⟩ := Result.bind_eq_ok.mp rest
  cases done
  -- Taking values off does not use any id.
  have same : next.nextId = m'.nextId := (nextId_of_pop popped').symm
  rw [same] at denotesRight
  exact ⟨after, BinaryOp.denotes diagonal denotesLeft denotesRight
    (fun division => units division right top) dense given⟩

/-- An operation on the values on top of the stack gives what its node computes from them, and a node
without operands gives unit coefficients. -/
theorem Computes.perform (diagonal : A.metric.isDiagonal = true)
    (computes : m.Computes A F leaves symbols inputs ρ stored (ys.reverse ++ xs)) {head : Head}
    (dense : head.dense A F leaves ys = some y)
    (units : head = .binary .divide → m.TopHasUnits)
    (made : Machine.perform A symbols m head = .ok (a, m')) :
    ∃ ρ', m'.Computes A F leaves symbols inputs ρ' stored xs ∧ a.Denotes F ρ' m'.nextId y ∧
      (ys = [] → a.HasUnits) := by
  -- There is one case for each kind of node, with as many operands as it takes.
  rw [Head.dense.eq_def] at dense
  split at dense
  · rename_i index
    rw [Machine.perform] at made
    -- An input is looked up among the symbols.
    cases found : symbols[index]? with
    | none =>
      rw [found] at made
      cases made
    | some value =>
      rw [found] at made
      cases made
      obtain ⟨denotes, unit⟩ := computes.leaf found dense
      exact ⟨ρ, computes, denotes, fun _ => unit⟩
  · obtain ⟨value, given, done⟩ := Result.bind_eq_ok.mp made
    cases done
    obtain ⟨denotes, unit⟩ := @ConstantKind.denotes A F ρ m.nextId _ _ _ _ dense given
    exact ⟨ρ, computes, denotes, fun _ => unit⟩
  · obtain ⟨ρ', after, denotes⟩ := Computes.performUnary computes dense made
    exact ⟨ρ', after, denotes, by simp⟩
  · rename_i op x z
    obtain ⟨after, denotes⟩ := Computes.performBinary diagonal computes dense
      (fun division => units (by rw [division])) made
    exact ⟨ρ, after, denotes, by simp⟩
  · rename_i op count
    split at dense
    · rename_i length
      subst length
      -- Operators of several operands take all of them off the stack at once.
      obtain ⟨after, each⟩ := computes.popOperands
      obtain ⟨value, given, done⟩ := Result.bind_eq_ok.mp made
      cases done
      refine ⟨ρ, after, VariadicOp.denotes diagonal each dense given, fun none => ?_⟩
      subst none
      cases dense
    · cases dense
  · obtain ⟨⟨arg, next⟩, popped, rest⟩ := Result.bind_eq_ok.mp made
    obtain ⟨after, denotes, -⟩ := Computes.pop computes popped
    obtain ⟨value, given, done⟩ := Result.bind_eq_ok.mp rest
    cases done
    cases dense
    exact ⟨ρ, after, denotes.extracted given, by simp⟩
  · cases dense

/-- A multiple of what a value denotes is pushed. -/
theorem Computes.push (computes : m.Computes A F leaves symbols inputs ρ stored xs)
    (denotes : a.Denotes F ρ m.nextId x) {q : Rat} (whole : Dyadic 0 q)
    (made : m.push a q = .ok m') :
    m'.Computes A F leaves symbols inputs ρ stored (q • x :: xs) ∧
      (a.HasUnits → q = 1 ∨ q = -1 → m'.TopHasUnits) := by
  -- A sign keeps unit coefficients.
  obtain ⟨b, scaled, done⟩ := Result.bind_eq_ok.mp made
  cases done
  refine ⟨⟨.cons (denotes.scaled whole scaled) computes.stack, computes.temporaries, computes.leaf,
    computes.steps⟩, fun units unit top inside => ?_⟩
  obtain rfl := Option.some.inj inside
  exact denotes.hasUnits_scaled units unit scaled

/-- A load pushes a multiple of what its temporary computes, which has unit coefficients. -/
theorem Computes.load (computes : m.Computes A F leaves symbols inputs ρ stored xs)
    (known : stored <+: shared) {code : Code} {divisor : Bool} {index checksum : Nat}
    (found : code.loaded shared divisor = some index) (value : code.value A F leaves = some x)
    (made : m.step A symbols ⟨checksum, code.scale, .load index⟩ = .ok m') :
    m'.Computes A F leaves symbols inputs ρ stored (x :: xs) ∧
      (code.scale = 1 ∨ code.scale = -1 → m'.TopHasUnits) := by
  obtain ⟨whole, y, stem, rfl⟩ := Code.value_stem.mp value
  rw [Machine.step] at made
  dsimp only at made
  cases temporary : m.temporaries[index]? with
  | none =>
    rw [temporary] at made
    cases made
  | some a =>
    rw [temporary] at made
    -- The temporary holds the stem of the code.
    obtain ⟨inside, rfl⟩ := List.getElem?_eq_some_iff.mp temporary
    have each := computes.temporaries
    have small : index < stored.length := each.length_eq ▸ inside
    have same : stored[index] = code.stem := by
      have entry := known.getElem small
      have holds := Code.stem_of_loaded found
      rw [List.getElem?_eq_getElem (small.trans_le known.length_le)] at holds
      exact entry.trans (Option.some.inj holds)
    obtain ⟨z, given, denotes, units⟩ := each.get inside small
    rw [List.get_eq_getElem, same, stem] at given
    obtain rfl := Option.some.inj given
    -- The value of the stem is pushed with the multiplier of the code.
    obtain ⟨after, unit⟩ := computes.push denotes whole made
    exact ⟨after, unit units⟩

/-- Instructions that push what a vector denotes, with unit coefficients under some condition. -/
def Pushes (A : Algebra) (F : Functions A.dim) (leaves : Nat → Option Dense)
    (symbols : List Multivector) (inputs : Values (Option Rat)) (stored : List Code)
    (is : List Instruction) (x : Dense) (units : Prop) : Prop :=
  ∀ {ρ : Nat → Rat} {m m' : Machine} {xs : List Dense},
    m.Computes A F leaves symbols inputs ρ stored xs → m.run A symbols is = .ok m' → ∃ ρ',
      m'.Computes A F leaves symbols inputs ρ' stored (x :: xs) ∧ (units → m'.TopHasUnits)

/-- A divisor without a multiplier but a sign, which is shared if it can be. -/
def SharedDivisor (shared : List Code) (divisor : Bool) (code : Code) : Prop :=
  divisor = true ∧ (code.scale = 1 ∨ code.scale = -1) ∧
    (code.isCandidate true = true → code.stem ∈ shared)

/-- Operands are pushed one after the other, and the last one ends on top. -/
theorem run_operands (marked : Bool) (head : Head) {operands : List Code}
    (each : ∀ code ∈ operands, ∀ divisor {x}, code.value A F leaves = some x →
      Pushes A F leaves symbols inputs stored (Code.emit shared divisor code) x
        (SharedDivisor shared divisor code)) :
    ∀ {ys : List Dense} {position : Nat} {ρ : Nat → Rat} {m m' : Machine} {xs : List Dense},
      Code.values A F leaves operands = some ys →
      m.Computes A F leaves symbols inputs ρ stored xs →
      m.run A symbols (Code.joinOperands marked (Code.emitOperands shared head position operands)) =
        .ok m' →
      ∃ ρ', m'.Computes A F leaves symbols inputs ρ' stored (ys.reverse ++ xs) ∧
        ∀ first last, operands = first ++ [last] →
          SharedDivisor shared (head.dividesBy (position + first.length)) last →
            m'.TopHasUnits := by
  -- Operands are pushed in order, and only the last one has to have unit coefficients.
  induction operands with
  | nil =>
    intro ys position ρ m m' xs given computes made
    cases given
    cases made
    exact ⟨ρ, computes, by simp⟩
  | cons code rest ih =>
    intro ys position ρ m m' xs given computes made
    obtain _ | ⟨value, others⟩ := Code.values_eq_some.mp given
    rw [Code.emitOperands, run_joinOperands] at made
    obtain ⟨next, first, later⟩ := Result.bind_eq_ok.mp made
    obtain ⟨ρ₁, between, unit⟩ := each code (by simp) _ value computes first
    obtain ⟨ρ₂, after, units⟩ := ih (fun c inside => each c (List.mem_cons_of_mem _ inside))
      (Code.values_eq_some.mpr others) between later
    refine ⟨ρ₂, by simpa using after, fun before last split divides => ?_⟩
    cases before with
    | nil =>
      -- The only operand is the last one.
      obtain ⟨rfl, rfl⟩ : code = last ∧ rest = [] := by simpa using split
      cases others
      cases later
      exact unit divides
    | cons c before =>
      obtain ⟨rfl, rfl⟩ : code = c ∧ rest = before ++ [last] := by simpa using split
      refine units before last rfl ?_
      rwa [List.length_cons, ← Nat.add_assoc, Nat.add_right_comm] at divides

/-- A whole tree pushes what it computes, if its operands do, and a tree without operands does so
with unit coefficients. -/
theorem run_emitWhole (diagonal : A.metric.isDiagonal = true) {code : Code}
    (covered : Code.Covered shared code)
    (each : ∀ c ∈ code.operands, ∀ divisor {x}, c.value A F leaves = some x →
      Pushes A F leaves symbols inputs stored (Code.emit shared divisor c) x
        (SharedDivisor shared divisor c)) (value : code.value A F leaves = some x) :
    Pushes A F leaves symbols inputs stored (Code.emitWhole shared code) x
      (code.operands = [] ∧ (code.scale = 1 ∨ code.scale = -1)) := by
  -- The operands are pushed, the operation is performed on them, and the multiplier applied.
  obtain ⟨head, scale, operands⟩ := code
  obtain ⟨whole, admitted, ys, y, given, dense, rfl⟩ := Code.value_node.mp value
  intro ρ m m' xs computes made
  rw [Code.emitWhole, run_append] at made
  obtain ⟨next, first, root⟩ := Result.bind_eq_ok.mp made
  obtain ⟨ρ₁, between, units⟩ := run_operands _ _ each given computes first
  obtain ⟨last, step, done⟩ := Result.bind_eq_ok.mp root
  cases done
  obtain ⟨⟨a, later⟩, performed, pushed⟩ := Result.bind_eq_ok.mp step
  -- A quotient has two operands, of which the divisor is on top.
  have divides : head = .binary .divide → next.TopHasUnits := by
    rintro rfl
    obtain ⟨dividend, divisor, rfl⟩ : ∃ l r, operands = [l, r] := by
      have length := (Code.values_eq_some.mp given).length_eq
      rw [Head.dense.eq_def] at dense
      split at dense <;> simp_all [List.length_eq_two]
    refine units [dividend] divisor rfl ⟨rfl, ?_, covered dividend divisor rfl rfl⟩
    simpa [Head.admits] using admitted
  obtain ⟨ρ₂, after, denotes, unit⟩ := between.perform diagonal dense divides performed
  obtain ⟨result, top⟩ := after.push denotes whole pushed
  refine ⟨ρ₂, result, fun both => top (unit ?_) both.2⟩
  obtain rfl : operands = [] := both.1
  cases given
  rfl

/-- A tree that cannot be shared even as a divisor has no operands. -/
theorem operands_of_unshareable {code : Code} (value : code.value A F leaves = some x)
    (unshareable : ¬ code.isCandidate true = true) : code.operands = [] := by
  obtain ⟨head, scale, operands⟩ := code
  obtain ⟨-, -, ys, y, given, dense, -⟩ := Code.value_node.mp value
  -- Only inputs and constants are left, which ask for no operand.
  have none : ys = [] := by
    rw [Head.dense.eq_def] at dense
    split at dense <;> simp_all [Code.isCandidate, Head.isOperator, Head.isComponent, Code.head]
  have length := (Code.values_eq_some.mp given).length_eq
  exact List.length_eq_zero_iff.mp (by rw [Code.operands, length, none, List.length_nil])

/-- A tree pushes what it computes, with unit coefficients where it is a divisor. -/
theorem run_emit (diagonal : A.metric.isDiagonal = true) (known : stored <+: shared) (code : Code) :
    ∀ divisor {x}, Code.Every (Code.Covered shared) code → code.value A F leaves = some x →
      Pushes A F leaves symbols inputs stored (Code.emit shared divisor code) x
        (SharedDivisor shared divisor code) := by
  -- By induction on the tree, which is loaded as a whole or emitted with its operands.
  induction code using Code.induction with
  | node head scale operands ih =>
    intro divisor x every value ρ m m' xs computes made
    obtain ⟨root, below⟩ := every
    rw [Code.emit_eq] at made
    cases found : (Code.node head scale operands).loaded shared divisor with
    | some index =>
      rw [found] at made
      obtain ⟨last, step, done⟩ := Result.bind_eq_ok.mp made
      cases done
      obtain ⟨after, unit⟩ := computes.load known found value step
      exact ⟨ρ, after, fun divides => unit divides.2.1⟩
    | none =>
      rw [found] at made
      have covered : Code.Covered shared (.node head scale operands) := root
      -- Otherwise the operands are emitted first, which the induction covers.
      obtain ⟨ρ', after, unit⟩ := run_emitWhole diagonal covered
        (fun c inside d y given => ih c inside d (below c inside) given) value computes made
      refine ⟨ρ', after, fun division => ?_⟩
      obtain ⟨divides, sign, share⟩ := division
      refine unit ⟨?_, sign⟩
      -- A divisor is shared wherever it can be, so that this one has no operands.
      refine operands_of_unshareable value fun shareable => ?_
      have absent := found
      rw [Code.loaded, divides, if_pos shareable] at absent
      exact List.idxOf?_eq_none_iff.mp absent (share shareable)

/-- Temporaries are computed one after the other, each from those before it. -/
theorem run_temporaries (diagonal : A.metric.isDiagonal = true) {rest : List Code}
    (each : ∀ stem ∈ rest, Code.Every (Code.Covered shared) stem ∧
      ∃ y, stem.value A F leaves = some y) :
    ∀ {stored ρ m m'}, stored ++ rest = shared →
      Computes A F leaves symbols inputs ρ m stored xs →
      m.run A symbols (rest.flatMap (Code.emitTemporary shared)) = .ok m' →
      ∃ ρ', m'.Computes A F leaves symbols inputs ρ' shared xs := by
  -- Each stem is computed and stored, which starts the next one with one temporary more.
  induction rest with
  | nil =>
    intro stored ρ m m' all computes made
    cases made
    rw [List.append_nil] at all
    exact ⟨ρ, all ▸ computes⟩
  | cons stem rest ih =>
    intro stored ρ m m' all computes made
    obtain ⟨every, y, value⟩ := each stem (by simp)
    have covered : Code.Covered shared stem := by
      obtain ⟨root, -⟩ := every
      exact root
    have operands : ∀ c ∈ stem.operands, Code.Every (Code.Covered shared) c := by
      obtain ⟨-, below⟩ := every
      exact below
    have known : stored <+: shared := ⟨stem :: rest, all⟩
    rw [List.flatMap_cons, Code.emitTemporary_eq, run_append, run_append] at made
    obtain ⟨next, stored', later⟩ := Result.bind_eq_ok.mp made
    obtain ⟨between, whole, store⟩ := Result.bind_eq_ok.mp stored'
    obtain ⟨last, step, done⟩ := Result.bind_eq_ok.mp store
    cases done
    -- The stem is computed from the temporaries so far, and its value becomes the next one.
    obtain ⟨ρ₁, pushed, -⟩ := run_emitWhole diagonal covered (fun c inside d x given =>
      run_emit diagonal known c d (operands c inside) given) value computes whole
    obtain ⟨ρ₂, after⟩ := pushed.store value step
    exact ih (fun c inside => each c (List.mem_cons_of_mem _ inside))
      (by rw [List.append_assoc]; exact all) after later

/-- Outputs are pushed one after the other. -/
theorem run_outputs (diagonal : A.metric.isDiagonal = true) {roots : List Code}
    (covered : ∀ root ∈ roots, Code.Every (Code.Covered shared) root) :
    ∀ {ys xs ρ m m'}, Code.values A F leaves roots = some ys →
      Computes A F leaves symbols inputs ρ m shared xs →
      m.run A symbols (roots.flatMap (Code.emit shared false)) = .ok m' →
      ∃ ρ', m'.Computes A F leaves symbols inputs ρ' shared (ys.reverse ++ xs) := by
  -- Each root is pushed on top of those before it.
  induction roots with
  | nil =>
    intro ys xs ρ m m' given computes made
    cases given
    cases made
    exact ⟨ρ, computes⟩
  | cons root rest ih =>
    intro ys xs ρ m m' given computes made
    obtain _ | ⟨value, others⟩ := Code.values_eq_some.mp given
    rw [List.flatMap_cons, run_append] at made
    obtain ⟨next, first, later⟩ := Result.bind_eq_ok.mp made
    -- The first root is at the bottom, so that its value comes last from the top.
    obtain ⟨ρ₁, between, -⟩ := run_emit diagonal List.prefix_rfl root false
      (covered root (by simp)) value computes first
    obtain ⟨ρ₂, after⟩ := ih (fun c inside => covered c (List.mem_cons_of_mem _ inside))
      (Code.values_eq_some.mpr others) between later
    exact ⟨ρ₂, by simpa using after⟩

end Clifford.Machine
