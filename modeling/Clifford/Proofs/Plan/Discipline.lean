import Clifford.Proofs.Code.Layout
import Clifford.Proofs.Plan.Step

/-! Stack discipline: a machine follows the heights that the layout of a program fixes, so that every
instruction finds what it needs. -/

namespace Clifford

namespace Machine

/-- An instruction finds what it needs: as many values as it takes operands, or the temporary that it
loads. -/
def Ready (m : Machine) (i : Instruction) : Prop :=
  match i.action with
  | .perform head => head.arity ≤ m.stack.length
  | .load index => index < m.temporaries.length
  | .operand _ => True
  | .store => 0 < m.stack.length

/-- The heights of a machine. -/
def heights (m : Machine) : Heights := ⟨m.stack.length, m.temporaries.length⟩

variable {A : Algebra} {leaves : List Multivector} {m m' r : Machine} {head : Head} {a : Multivector}
  {i : Instruction} {h : Heights}

/-- An instruction that the heights can follow finds what it needs. -/
theorem ready_of_step (followed : m.heights.step i = some h) : m.Ready i := by
  rw [Heights.step] at followed
  rw [Ready]
  cases action : i.action with
  | operand length => trivial
  | perform head | load index | store =>
    -- The heights are only followed where enough is there.
    simp only [action, Option.ite_none_right_eq_some] at followed
    exact followed.1

/-- An operation takes its operands off the stack, and leaves the temporaries as they are. -/
theorem Performed.heights (performed : m.Performed A leaves head a r)
    (ready : head.arity ≤ m.stack.length) :
    r.stack.length = m.stack.length - head.arity ∧ r.temporaries = m.temporaries := by
  cases performed with
  | input | constant => exact ⟨rfl, rfl⟩
  | unary stack | known stack | block stack | component stack =>
    exact ⟨by rw [stack]; rfl, rfl⟩
  | binary stack => exact ⟨by rw [stack]; rfl, rfl⟩
  | @variadic op count value applied =>
    -- There are enough values, so that as many are taken as are asked for.
    have enough : count ≤ m.stack.length := ready
    refine ⟨?_, rfl⟩
    rw [popOperands, available, if_pos enough, List.length_drop]
    rfl

/-- A machine follows the heights of an instruction. -/
theorem heights_of_step (followed : m.heights.step i = some h) (made : m.step A leaves i = .ok m') :
    m'.heights = h := by
  -- Each kind of step changes the machine as it changes the heights.
  have ready := ready_of_step followed
  rw [Heights.step] at followed
  rw [Ready] at ready
  cases stepped_of_ok made with
  | operand marks =>
    rw [marks] at followed
    exact Option.some.inj followed
  | load loads found scaled =>
    simp only [loads] at followed ready
    rw [if_pos (show _ < m.heights.temporaries from ready)] at followed
    exact Option.some.inj followed
  | perform performs performed scaled =>
    simp only [performs] at followed ready
    rw [if_pos (show _ ≤ m.heights.stack from ready)] at followed
    obtain ⟨stack, temporaries⟩ := performed.heights ready
    rw [← Option.some.inj followed]
    simp [heights, stack, temporaries]
  | store stores stack named =>
    simp only [stores] at followed ready
    rw [if_pos (show 0 < m.heights.stack from ready)] at followed
    rw [← Option.some.inj followed]
    simp [heights, stack]

/-- A machine follows the heights of several instructions. -/
theorem heights_of_run {is : List Instruction} : ∀ {m : Machine} {h}, m.heights.run is = some h →
    m.run A leaves is = .ok r → r.heights = h := by
  -- The heights are followed instruction by instruction.
  induction is with
  | nil =>
    intro m h followed made
    cases made
    exact Option.some.inj followed
  | cons i is ih =>
    intro m h followed made
    rw [Heights.run_cons] at followed
    obtain ⟨next, first, rest⟩ := Option.bind_eq_some_iff.mp followed
    rw [run_cons] at made
    obtain ⟨n, step, later⟩ := Result.bind_eq_ok.mp made
    rw [← heights_of_step first step] at rest
    exact ih rest later

/-- Every instruction finds what it needs, as far as a machine gets. -/
theorem ready_of_run {before after : List Instruction}
    (followed : m.heights.run (before ++ i :: after) = some h)
    (made : m.run A leaves before = .ok r) : r.Ready i := by
  rw [Heights.run_append] at followed
  obtain ⟨next, first, rest⟩ := Option.bind_eq_some_iff.mp followed
  -- The heights go on with this instruction, which they only do where it finds its operands.
  rw [← heights_of_run first made, Heights.run_cons] at rest
  obtain ⟨later, step, -⟩ := Option.bind_eq_some_iff.mp rest
  exact ready_of_step step

end Machine

namespace Program

/-- Compiled code respects the discipline of the stack. A program consists of a block for each temporary
and of the code of the outputs: a block leaves one value and loads nothing but what is stored before
it, the outputs leave a value each, every mark says how long the operand behind it is, and every
operation stands right behind as many operands as it takes. So a machine finds the operands of every
instruction that it gets to, and every temporary that is loaded, and ends with the outputs alone. -/
theorem compile_disciplined {eliminate : Bool} {roots : List Expr} {codes : List Code}
    (lowered : roots.mapM Expr.lower = .ok codes) :
    ∃ p blocks outputs, compile eliminate roots = .ok p ∧ p.LaidOut blocks outputs ∧
      (∀ k block, blocks[k]? = some block → Heights.run ⟨0, k⟩ block = some ⟨1, k⟩) ∧
      Heights.run ⟨0, p.temporaryCount⟩ outputs.flatten = some ⟨p.outputCount, p.temporaryCount⟩ ∧
      (∀ before i after, p.instructions = before ++ i :: after →
        Code.Placed p.temporaryCount before i after) ∧
      ∀ A leaves id,
        (∀ before i after m, p.instructions = before ++ i :: after →
          (Machine.start id).run A leaves before = .ok m → m.Ready i) ∧
        ∀ m, (Machine.start id).run A leaves p.instructions = .ok m →
          m.stack.length = p.outputCount ∧ m.temporaries.length = p.temporaryCount := by
  -- All of it is read off the layout, and for machines off the heights that the layout fixes.
  have laidOut := laidOut_ofCodes eliminate (Expr.wellFormed_of_lower lowered)
  refine ⟨_, _, _, by rw [compile, lowered]; rfl, laidOut, ?_, ?_, fun _ _ _ split =>
    laidOut.placed split, ?_⟩
  · intro k block found
    exact (laidOut.temporary k block found).heights 0
  · rw [Code.heights_flatten laidOut.output, laidOut.outputCount, Nat.zero_add]
  · intro A leaves id
    have followed : (Machine.start id).heights.run (ofCodes eliminate codes).instructions =
        some ⟨_, _⟩ := laidOut.heights
    refine ⟨fun before i after m split made => ?_, fun m made => ?_⟩
    · rw [split] at followed
      exact Machine.ready_of_run followed made
    · have heights := Machine.heights_of_run followed made
      exact ⟨congrArg Heights.stack heights, congrArg Heights.temporaries heights⟩

/-- A wedge of a leaf with the exponential and the reverse of another wedge keeps that wedge and its
exponential in temporaries of their own, and leaves one value. -/
theorem compile_disciplined_exponential :
    let wedge := Expr.wedge (.leaf 0) (.leaf 1)
    let roots := [.variadic .wedge [.leaf 0, .unary .exp wedge, .reverse wedge]]
    let factor : Code := .node (.variadic .wedge 2) 1 [.leaf (.input 0) 1, .leaf (.input 1) 1]
    let codes : List Code := [.node (.variadic .wedge 3) 1
      [.leaf (.input 0) 1, .node (.unary .exp) 1 [factor], .node (.unary .reverse) 1 [factor]]]
    roots.mapM Expr.lower = .ok codes ∧ ∃ p blocks outputs, compile true roots = .ok p ∧
      p.LaidOut blocks outputs ∧ blocks.length = 2 ∧
        Heights.run ⟨0, 2⟩ outputs.flatten = some ⟨1, 2⟩ := by
  intro wedge roots factor codes
  have lowered : roots.mapM Expr.lower = .ok codes := by decide +kernel
  obtain ⟨p, blocks, outputs, compiled, laidOut, -, heights, -⟩ :=
    @compile_disciplined true roots codes lowered
  have same : p = ofCodes true codes := by
    rw [compile, lowered] at compiled
    exact (Except.ok.inj compiled).symm
  have temporaries : p.temporaryCount = 2 := by
    rw [same]
    decide +kernel
  have single : p.outputCount = 1 := by rw [same]; rfl
  rw [temporaries, single] at heights
  exact ⟨lowered, p, blocks, outputs, compiled, laidOut, laidOut.temporaryCount.trans temporaries,
    heights⟩

end Program

end Clifford
