import Clifford.Proofs.Code.Arity

/-! Traces: a program runs on trees instead of values, which shows the tree that every instruction
computes. -/

namespace Clifford

/-- The trees on the stack with its top first, the trees of the temporaries, and the stems that
operators have computed so far. -/
structure Trace where
  stack : List Code
  temporaries : List Code
  computed : List Code

namespace Trace

/-- The trace before the first instruction. -/
def start : Trace := ⟨[], [], []⟩

/-- Performs an operation on the trees on top of the stack. -/
def perform (t : Trace) (head : Head) (scale : Rat) : Option Trace :=
  if head.arity ≤ t.stack.length then
    let operands := (t.stack.take head.arity).reverse
    some { t with
      stack := .node head scale operands :: t.stack.drop head.arity
      computed := if head.isOperator then t.computed ++ [.node head 1 operands] else t.computed }
  else none

/-- Follows one instruction, which loads only what has been stored. -/
def step (t : Trace) (i : Instruction) : Option Trace :=
  match i.action with
  | .perform head => t.perform head i.scale
  | .load index => do
    return { t with stack := (← t.temporaries[index]?).withScale i.scale :: t.stack }
  | .operand _ => some t
  | .store =>
    match t.stack with
    | [] => none
    | top :: rest => some { t with stack := rest, temporaries := t.temporaries ++ [top] }

/-- Follows instructions in order. -/
def run (t : Trace) (is : List Instruction) : Option Trace := is.foldlM step t

variable {t : Trace}

/-- Instructions are followed one part after the other. -/
theorem run_append (is js : List Instruction) :
    t.run (is ++ js) = (t.run is).bind fun next => next.run js := List.foldlM_append

/-- A single instruction is a step. -/
theorem run_single (i : Instruction) : t.run [i] = t.step i := by
  -- Nothing follows the step.
  rw [run, List.foldlM_cons]
  exact Option.bind_fun_some (t.step i)

/-- An operation takes its operands off the stack. -/
theorem perform_eq {head : Head} {operands : List Code} (count : operands.length = head.arity)
    (scale : Rat) (stack temporaries computed : List Code) :
    perform ⟨operands.reverse ++ stack, temporaries, computed⟩ head scale =
      some ⟨.node head scale operands :: stack, temporaries,
        computed ++ if head.isOperator then [.node head 1 operands] else []⟩ := by
  -- The operands are on top of the stack, the last one first.
  have depth : head.arity ≤ (operands.reverse ++ stack).length := by
    rw [List.length_append, List.length_reverse, count]
    exact Nat.le_add_right _ _
  have taken : (operands.reverse ++ stack).take head.arity = operands.reverse :=
    List.take_left' (by rw [List.length_reverse, count])
  have dropped : (operands.reverse ++ stack).drop head.arity = stack :=
    List.drop_left' (by rw [List.length_reverse, count])
  rw [perform, if_pos depth]
  dsimp only
  rw [taken, dropped, List.reverse_reverse]
  split <;> simp

/-- Operands are followed one after the other, whether they are marked or not. -/
theorem run_joinOperands (marked : Bool) (first : List Instruction)
    (rest : List (List Instruction)) : t.run (Code.joinOperands marked (first :: rest)) =
      (t.run first).bind fun next => next.run (Code.joinOperands marked rest) := by
  -- A mark leaves the trace as it is.
  rw [Code.joinOperands, List.flatMap_cons, run_append, ← Code.joinOperands]
  cases marked <;> rfl

end Trace

namespace Code

mutual

/-- The stems that the emission of code loads or computes where they can be shared. -/
def uses (shared : List Code) (divisor : Bool) : Code → List Code
  | node head scale operands =>
    let stem := node head 1 operands
    if (node head scale operands).isCandidate divisor then
      (if stem ∈ shared then [] else usesOf shared head 0 operands) ++ [stem]
    else usesOf shared head 0 operands

/-- The stems that the emission of operands from a position on loads or computes. -/
def usesOf (shared : List Code) (head : Head) (position : Nat) : List Code → List Code
  | [] => []
  | code :: rest =>
    uses shared (head.dividesBy position) code ++ usesOf shared head (position + 1) rest

end

/-- The stems of operators that the emission of code computes in place. -/
def inPlace (shared : List Code) (stems : List Code) : List Code :=
  stems.filter fun stem => stem.head.isOperator && stem ∉ shared

variable {shared stored : List Code}

theorem inPlace_append (first second : List Code) :
    inPlace shared (first ++ second) = inPlace shared first ++ inPlace shared second :=
  List.filter_append _ _

/-- A stem that is shared is not computed in place. -/
theorem inPlace_of_mem {stem : Code} (inside : stem ∈ shared) : inPlace shared [stem] = [] := by
  simp [inPlace, inside]

/-- A stem that is not shared is computed in place, if an operator does so. -/
theorem inPlace_of_not_mem {stem : Code} (outside : stem ∉ shared) :
    inPlace shared [stem] = if stem.head.isOperator then [stem] else [] := by
  -- Only the kind of the node is left to look at.
  rw [inPlace, List.filter_singleton]
  simp [outside]

/-- The stems that a tree and the stems in its operands have. -/
def usesBelow (shared : List Code) (code : Code) : List Code :=
  usesOf shared code.head 0 code.operands

/-- How code is emitted, and the stems that this loads or computes: it is loaded, or it is computed in
place, where it could be shared or where it could not. -/
inductive Emitted (shared : List Code) (divisor : Bool) (code : Code) : Prop
  | load {index : Nat} (found : code.loaded shared divisor = some index) (inside : code.stem ∈ shared)
      (used : uses shared divisor code = [code.stem])
  | inPlace (absent : code.loaded shared divisor = none) (outside : code.stem ∉ shared)
      (used : uses shared divisor code = usesBelow shared code ++ [code.stem])
  | plain (absent : code.loaded shared divisor = none) (unshareable : code.isCandidate divisor = false)
      (used : uses shared divisor code = usesBelow shared code)

/-- Code is emitted in one of the three ways. -/
theorem emitted (shared : List Code) (divisor : Bool) (code : Code) :
    code.Emitted shared divisor := by
  -- What can be shared is loaded if it is found among the shared stems.
  obtain ⟨head, scale, operands⟩ := code
  by_cases shareable : (Code.node head scale operands).isCandidate divisor = true
  · cases found : shared.idxOf? (Code.node head 1 operands) with
    | some index =>
      obtain ⟨bound, same, -⟩ := List.idxOf?_eq_some_iff.mp found
      have inside : Code.node head 1 operands ∈ shared := same ▸ List.getElem_mem bound
      have loads : (Code.node head scale operands).loaded shared divisor = some index := by
        rw [loaded, if_pos shareable]
        exact found
      refine .load loads inside ?_
      rw [uses, if_pos shareable, if_pos inside]
      rfl
    | none =>
      have outside : Code.node head 1 operands ∉ shared := List.idxOf?_eq_none_iff.mp found
      refine .inPlace ?_ outside ?_
      · rw [loaded, if_pos shareable]
        exact found
      · rw [uses, if_pos shareable, if_neg outside]
        rfl
  · rw [Bool.not_eq_true] at shareable
    refine .plain ?_ shareable ?_
    · rw [loaded, if_neg (by simp [shareable])]
    · rw [uses, if_neg (by simp [shareable])]
      rfl

/-- The stems of operators that a temporary computes: those in its operands, and its own. -/
def computedFor (shared : List Code) (code : Code) : List Code :=
  inPlace shared (usesBelow shared code) ++ if code.head.isOperator then [code.stem] else []

/-- What is loaded is found at its position in every beginning of what is shared that has it. -/
theorem getElem?_of_loaded (known : stored <+: shared) {divisor : Bool} {code : Code} {index : Nat}
    (found : code.loaded shared divisor = some index) (member : code.stem ∈ stored) :
    stored[index]? = some code.stem := by
  -- The code is looked up by its stem.
  have listed : shared.idxOf? code.stem = some index := by
    rw [loaded] at found
    split at found
    · exact found
    · cases found
  obtain ⟨bound, same, first⟩ := List.idxOf?_eq_some_iff.mp listed
  obtain ⟨j, small, here⟩ := List.getElem_of_mem member
  -- The position is that of the first occurrence.
  have before : index ≤ j := by
    by_contra later
    have again := first j (Nat.lt_of_not_le later)
    rw [← known.getElem small, here] at again
    simp at again
  rw [List.getElem?_eq_getElem (before.trans_lt small), known.getElem (before.trans_lt small), same]

end Code

namespace Trace

open Code

variable {shared stored : List Code} {stack log : List Code}

/-- What is loaded has been stored before. -/
def Loads (shared stored stems : List Code) : Prop := ∀ stem ∈ stems, stem ∈ shared → stem ∈ stored

/-- Instructions that push a tree and compute some of the stems in place. -/
def Follows (shared stored : List Code) (is : List Instruction) (code : Code) (stems : List Code) :
    Prop :=
  ∀ stack log, run ⟨stack, stored, log⟩ is =
    some ⟨code :: stack, stored, log ++ inPlace shared stems⟩

/-- The operands of a tree are pushed in order. -/
theorem run_operands (head : Head) (marked : Bool) {operands : List Code}
    (each : ∀ code ∈ operands, ∀ divisor, Loads shared stored (uses shared divisor code) →
      Follows shared stored (emit shared divisor code) code (uses shared divisor code)) :
    ∀ {position}, Loads shared stored (usesOf shared head position operands) → ∀ stack log,
      run ⟨stack, stored, log⟩
        (joinOperands marked (emitOperands shared head position operands)) =
          some ⟨operands.reverse ++ stack, stored,
            log ++ inPlace shared (usesOf shared head position operands)⟩ := by
  -- The first operand is pushed before the others, and ends up below them.
  induction operands with
  | nil =>
    intro position _ stack log
    simp [emitOperands, usesOf, joinOperands, inPlace, run]
  | cons code rest ih =>
    intro position loads stack log
    rw [usesOf] at loads ⊢
    have first := each code (by simp) _ fun s inside => loads s (List.mem_append_left _ inside)
    have later := ih (fun c inside => each c (List.mem_cons_of_mem _ inside))
      fun s inside => loads s (List.mem_append_right _ inside)
    rw [emitOperands, run_joinOperands, first, Option.bind_some, later]
    simp [inPlace_append]

/-- A whole tree is computed from its operands. -/
theorem run_emitWhole {code : Code} (count : code.operands.length = code.head.arity)
    (each : ∀ c ∈ code.operands, ∀ divisor, Loads shared stored (uses shared divisor c) →
      Follows shared stored (emit shared divisor c) c (uses shared divisor c))
    (loads : Loads shared stored (usesBelow shared code)) (stack log : List Code) :
    run ⟨stack, stored, log⟩ (emitWhole shared code) =
      some ⟨code :: stack, stored, log ++ computedFor shared code⟩ := by
  obtain ⟨head, scale, operands⟩ := code
  -- The operands are pushed, and the operation finds them on top of the stack.
  rw [emitWhole, run_append, run_operands _ _ each loads, Option.bind_some, run_single]
  show Trace.perform _ head scale = _
  rw [computedFor, ← List.append_assoc]
  exact perform_eq count scale stack stored _

/-- A tree is pushed by what is emitted for it. -/
theorem run_emit (known : stored <+: shared) {code : Code} (wellFormed : code.WellFormed) :
    ∀ divisor, Loads shared stored (uses shared divisor code) →
      Follows shared stored (emit shared divisor code) code (uses shared divisor code) := by
  -- By induction on the tree, which is loaded or computed from its operands.
  induction wellFormed with
  | @node head scale operands count _ below ih =>
    intro divisor loads stack log
    have whole := @run_emitWhole shared stored (.node head scale operands) count ih
    rw [emit_eq]
    cases emitted shared divisor (.node head scale operands) with
    | @load index found inside used =>
      -- The temporary holds the stem, which gets its multiplier back.
      rw [used] at loads ⊢
      have held : stored[index]? = some (Code.node head scale operands).stem :=
        getElem?_of_loaded known found (loads _ (List.mem_singleton.mpr rfl) inside)
      rw [found]
      dsimp only
      rw [run_single, step]
      dsimp only
      rw [held, inPlace_of_mem inside, List.append_nil]
      rfl
    | inPlace absent outside used =>
      -- The stem is computed behind those below it, if an operator does so.
      rw [used] at loads ⊢
      rw [absent]
      dsimp only
      rw [whole (fun s below => loads s (List.mem_append_left _ below)), inPlace_append,
        inPlace_of_not_mem outside]
      rfl
    | plain absent unshareable used =>
      -- Only what is no operator cannot be shared.
      rw [used] at loads ⊢
      rw [absent]
      dsimp only
      rw [whole loads, computedFor]
      have none : (Code.node head scale operands).head.isOperator = false := by
        rw [isCandidate, Bool.or_eq_false_iff] at unshareable
        exact unshareable.1
      rw [none, if_neg Bool.false_ne_true, List.append_nil]

/-- The stems in the operands of a temporary are stored before it. -/
def Ordered (shared : List Code) : Prop :=
  ∀ before stem after, shared = before ++ stem :: after → Loads shared before (usesBelow shared stem)

/-- The temporaries are filled with the shared stems in order. -/
theorem run_temporaries (ordered : Ordered shared)
    (stems : ∀ stem ∈ shared, stem.WellFormed) {rest : List Code} :
    ∀ {stored}, stored ++ rest = shared → ∀ log,
      run ⟨[], stored, log⟩ (rest.flatMap (emitTemporary shared)) =
        some ⟨[], shared, log ++ rest.flatMap (computedFor shared)⟩ := by
  -- Between the temporaries the stack is empty, and each finds all those before it stored.
  induction rest with
  | nil =>
    intro stored all log
    rw [List.append_nil] at all
    simp [run, all]
  | cons stem rest ih =>
    intro stored all log
    have wellFormed := stems stem (all ▸ by simp)
    have known : stored <+: shared := ⟨stem :: rest, all⟩
    have whole := run_emitWhole wellFormed.count
      (fun c inside divisor => run_emit known (wellFormed.parts c inside) divisor)
      (ordered stored stem rest all.symm) [] log
    rw [List.flatMap_cons, emitTemporary_eq, run_append, run_append, whole, Option.bind_some,
      run_single]
    -- The store moves the stem from the stack to the temporaries.
    show ((Trace.run ⟨[], stored ++ [stem], _⟩ _)) = _
    rw [ih (by rw [List.append_assoc]; exact all), List.flatMap_cons, List.append_assoc]

/-- The outputs are pushed in order. -/
theorem run_outputs {roots : List Code} (wellFormed : ∀ root ∈ roots, root.WellFormed) :
    ∀ stack log, run ⟨stack, shared, log⟩ (roots.flatMap (emit shared false)) =
      some ⟨roots.reverse ++ stack, shared,
        log ++ inPlace shared (roots.flatMap (uses shared false))⟩ := by
  -- The outputs stay on the stack, each on top of those before it.
  induction roots with
  | nil =>
    intro stack log
    simp [run, inPlace]
  | cons root rest ih =>
    intro stack log
    obtain ⟨first, others⟩ := List.forall_mem_cons.mp wellFormed
    rw [List.flatMap_cons, run_append, run_emit List.prefix_rfl first false fun _ _ inside => inside,
      Option.bind_some, ih others, List.flatMap_cons, inPlace_append]
    simp

end Trace

end Clifford
