import Clifford.Proofs.Code.Complete

/-! The layout of programs: blocks of code for one value each, in which operations stand right behind
their operands, and the heights of the stack and of the temporaries that result from it. -/

namespace Clifford

/-- The numbers of values on the stack and in the temporaries. -/
structure Heights where
  stack : Nat
  temporaries : Nat
deriving DecidableEq

namespace Heights

/-- Follows one instruction, which finds its operands and loads only what has been stored. -/
def step (h : Heights) (i : Instruction) : Option Heights :=
  match i.action with
  | .perform head =>
    if head.arity ≤ h.stack then some { h with stack := h.stack - head.arity + 1 } else none
  | .load index => if index < h.temporaries then some { h with stack := h.stack + 1 } else none
  | .operand _ => some h
  | .store => if 0 < h.stack then some ⟨h.stack - 1, h.temporaries + 1⟩ else none

/-- Follows instructions in order. -/
def run (h : Heights) (is : List Instruction) : Option Heights := is.foldlM step h

variable {h : Heights}

/-- Instructions are followed one part after the other. -/
theorem run_append (is js : List Instruction) :
    h.run (is ++ js) = (h.run is).bind fun next => next.run js := List.foldlM_append

/-- The first instruction is followed first. -/
theorem run_cons (i : Instruction) (is : List Instruction) :
    h.run (i :: is) = (h.step i).bind fun next => next.run is := List.foldlM_cons

/-- A single instruction is a step. -/
theorem run_single (i : Instruction) : h.run [i] = h.step i := by
  rw [run_cons]
  exact Option.bind_fun_some (h.step i)

end Heights

namespace Code

/-- Code for one value that loads nothing but the first temporaries: a load, or an operation behind
the code of its operands, with a mark of its length in front of each where they are marked. -/
inductive Block (bound : Nat) : List Instruction → Prop
  | load {i : Instruction} {index : Nat} (loads : i.action = .load index) (stored : index < bound) :
      Block bound [i]
  | perform {i : Instruction} {head : Head} {operands : List (List Instruction)}
      (performs : i.action = .perform head) (count : operands.length = head.arity)
      (below : ∀ is ∈ operands, Block bound is) :
      Block bound (joinOperands head.marksOperands operands ++ [i])

/-- An instruction stands where it belongs: a mark in front of code for one value that is as long as
it says, an operation behind the code of its operands, a load behind what it loads. -/
def Placed (bound : Nat) (before : List Instruction) (i : Instruction) (after : List Instruction) :
    Prop :=
  match i.action with
  | .perform head => ∃ earlier operands, before = earlier ++ joinOperands head.marksOperands operands ∧
      operands.length = head.arity ∧ ∀ is ∈ operands, Block bound is
  | .load index => index < bound
  | .operand length => ∃ is later, after = is ++ later ∧ is.length = length ∧ Block bound is
  | .store => True

/-- Something holds of every instruction of a part of code, between what stands before it and what
stands behind it. -/
def Throughout (P : List Instruction → Instruction → List Instruction → Prop)
    (left is right : List Instruction) : Prop :=
  ∀ before i after, is = before ++ i :: after → P (left ++ before) i (after ++ right)

variable {bound : Nat} {is js left right : List Instruction} {operands : List (List Instruction)}
  {P : List Instruction → Instruction → List Instruction → Prop}

/-- More temporaries can be loaded. -/
theorem Block.mono {bound' : Nat} (le : bound ≤ bound') (block : Block bound is) : Block bound' is := by
  -- Only the loads in a block have anything to do with the bound.
  induction block with
  | load loads stored => exact .load loads (stored.trans_le le)
  | perform performs count _ ih => exact .perform performs count ih

/-- What holds throughout two parts of code holds throughout both together. -/
theorem Throughout.append (first : Throughout P left is (js ++ right))
    (second : Throughout P (left ++ is) js right) : Throughout P left (is ++ js) right := by
  intro before i after split
  -- The instruction belongs to the first part or to the second one.
  rcases List.append_eq_append_iff.mp split with ⟨earlier, rfl, rest⟩ | ⟨later, rfl, rest⟩
  · rw [← List.append_assoc]
    exact second earlier i after rest
  · cases later with
    | nil =>
      -- The first part ends right before the instruction, which starts the second one.
      have own := second [] i after (by simpa using rest.symm)
      simpa using own
    | cons j later =>
      obtain ⟨rfl, rfl⟩ := List.cons.inj rest
      have own := first before i later rfl
      rwa [← List.append_assoc] at own

/-- What holds of an instruction holds throughout it. -/
theorem Throughout.single {i : Instruction} (holds : P left i right) :
    Throughout P left [i] right := by
  intro before j after split
  cases before with
  | nil =>
    obtain ⟨rfl, rfl⟩ := List.cons.inj split
    simpa using holds
  | cons k before =>
    -- A second instruction does not fit.
    have impossible := congrArg List.length split
    simp at impossible

/-- What holds throughout each of several parts, whatever surrounds it, holds throughout all of them. -/
theorem Throughout.flatMap {α : Type} {part : α → List Instruction} {xs : List α}
    (each : ∀ x ∈ xs, ∀ left right, Throughout P left (part x) right) :
    ∀ left right, Throughout P left (xs.flatMap part) right := by
  induction xs with
  | nil =>
    -- There is no instruction to say anything about.
    intro left right before i after split
    simp at split
  | cons x xs ih =>
    intro left right
    obtain ⟨own, others⟩ := List.forall_mem_cons.mp each
    rw [List.flatMap_cons]
    exact .append (own _ _) (ih others _ _)

/-- Joined operands are placed when each of them is by itself. -/
theorem placed_joinOperands (marked : Bool) (blocks : ∀ is ∈ operands, Block bound is)
    (each : ∀ is ∈ operands, ∀ left right, Throughout (Placed bound) left is right) :
    ∀ left right, Throughout (Placed bound) left (joinOperands marked operands) right := by
  refine .flatMap fun is inside left right => ?_
  cases marked with
  | false => exact each is inside _ _
  | true =>
    -- The mark is followed by its operand.
    rw [if_pos rfl, ← List.singleton_append]
    exact .append (.single ⟨is, _, rfl, rfl, blocks is inside⟩) (each is inside _ _)

/-- Every instruction of a block stands where it belongs, whatever surrounds the block. -/
theorem Block.placed (block : Block bound is) : ∀ left right, Throughout (Placed bound) left is right := by
  induction block with
  | load loads stored =>
    intro left right
    exact .single (by rw [Placed, loads]; exact stored)
  | @perform i head operands performs count below ih =>
    intro left right
    -- The operation itself sees its operands right in front of it.
    refine .append (placed_joinOperands _ below ih _ _) (.single ?_)
    rw [Placed, performs]
    exact ⟨left, operands, rfl, count, below⟩

/-- Operands without marks stand one behind the other. -/
theorem joinOperands_unmarked : joinOperands false operands = operands.flatten := by
  -- Without marks nothing is put in front of an operand.
  simp [joinOperands, List.flatMap_id']

/-- Several blocks are placed. -/
theorem placed_flatten (blocks : ∀ is ∈ operands, Block bound is) :
    ∀ left right, Throughout (Placed bound) left operands.flatten right := by
  -- Blocks one behind the other are operands without marks.
  rw [← joinOperands_unmarked]
  exact placed_joinOperands false blocks fun is inside => (blocks is inside).placed

/-- Operands leave a value each, where each of them leaves one. -/
theorem heights_joinOperands (marked : Bool) {count : Nat}
    (each : ∀ is ∈ operands, ∀ stack, Heights.run ⟨stack, count⟩ is = some ⟨stack + 1, count⟩) :
    ∀ stack, Heights.run ⟨stack, count⟩ (joinOperands marked operands) =
      some ⟨stack + operands.length, count⟩ := by
  -- Each operand finds one value more on the stack than the one before it.
  induction operands with
  | nil =>
    intro stack
    rfl
  | cons first rest ih =>
    intro stack
    obtain ⟨own, each⟩ := List.forall_mem_cons.mp each
    have joined : Heights.run ⟨stack, count⟩ (joinOperands marked (first :: rest)) =
        (Heights.run ⟨stack, count⟩ first).bind fun next => next.run (joinOperands marked rest) := by
      rw [joinOperands, List.flatMap_cons, Heights.run_append, ← joinOperands]
      -- A mark leaves the heights as they are.
      cases marked <;> rfl
    rw [joined, own, Option.bind_some, ih each, List.length_cons, Nat.add_right_comm, Nat.add_assoc]

/-- A block leaves one value. -/
theorem Block.heights (block : Block bound is) :
    ∀ stack, Heights.run ⟨stack, bound⟩ is = some ⟨stack + 1, bound⟩ := by
  induction block with
  | load loads stored =>
    intro stack
    rw [Heights.run_single, Heights.step, loads]
    exact if_pos stored
  | @perform i head operands performs count below ih =>
    intro stack
    -- The operation finds as many values as its operands leave.
    rw [Heights.run_append, heights_joinOperands _ ih, Option.bind_some, Heights.run_single,
      Heights.step, performs]
    simp [count]

/-- Blocks leave a value each. -/
theorem heights_flatten (blocks : ∀ is ∈ operands, Block bound is) (stack : Nat) :
    Heights.run ⟨stack, bound⟩ operands.flatten = some ⟨stack + operands.length, bound⟩ := by
  -- As operands of anything, the blocks leave a value each.
  rw [← joinOperands_unmarked]
  exact heights_joinOperands false (fun is inside => (blocks is inside).heights) stack

section Emission

variable {shared stored : List Code}

/-- There is an emitted part for each operand. -/
theorem length_emitOperands (head : Head) (codes : List Code) :
    ∀ position, (emitOperands shared head position codes).length = codes.length := by
  -- Nothing is emitted between the operands and nothing is left out.
  induction codes with
  | nil => exact fun _ => rfl
  | cons code rest ih =>
    intro position
    rw [emitOperands, List.length_cons, List.length_cons, ih]

/-- Operands are emitted as blocks. -/
theorem block_emitOperands (head : Head) {codes : List Code}
    (each : ∀ code ∈ codes, ∀ divisor, Trace.Loads shared stored (uses shared divisor code) →
      Block stored.length (emit shared divisor code)) :
    ∀ {position}, Trace.Loads shared stored (usesOf shared head position codes) →
      ∀ is ∈ emitOperands shared head position codes, Block stored.length is := by
  -- An operand loads some of what all operands load.
  induction codes with
  | nil =>
    intro position _ is inside
    simp [emitOperands] at inside
  | cons code rest ih =>
    intro position loads is inside
    obtain ⟨own, each⟩ := List.forall_mem_cons.mp each
    rw [usesOf] at loads
    rw [emitOperands] at inside
    rcases List.mem_cons.mp inside with rfl | later
    · exact own _ fun s used => loads s (List.mem_append_left _ used)
    · exact ih each (fun s used => loads s (List.mem_append_right _ used)) is later

/-- A whole tree is emitted as a block. -/
theorem block_emitWhole {code : Code} (count : code.operands.length = code.head.arity)
    (each : ∀ c ∈ code.operands, ∀ divisor, Trace.Loads shared stored (uses shared divisor c) →
      Block stored.length (emit shared divisor c))
    (loads : Trace.Loads shared stored (usesBelow shared code)) :
    Block stored.length (emitWhole shared code) := by
  -- The operation stands behind the blocks of its operands, which are as many as it takes.
  refine .perform rfl ?_ (block_emitOperands code.head each loads)
  rw [length_emitOperands, count]

/-- A tree is emitted as a block, if what it loads has been stored. -/
theorem block_emit (known : stored <+: shared) {code : Code} (wellFormed : code.WellFormed) :
    ∀ divisor, Trace.Loads shared stored (uses shared divisor code) →
      Block stored.length (emit shared divisor code) := by
  induction wellFormed with
  | @node head scale operands count _ below ih =>
    intro divisor loads
    -- A tree that is not loaded is an operation on operands for which this is known.
    have whole := @block_emitWhole shared stored (.node head scale operands) count ih
    rw [emit_eq]
    cases emitted shared divisor (.node head scale operands) with
    | load found inside used =>
      -- The stem that is loaded has been stored, and was so at the position where it is found.
      have held := getElem?_of_loaded known found
        (loads _ (used ▸ List.mem_singleton.mpr rfl) inside)
      rw [found]
      exact .load rfl (List.getElem?_eq_some_iff.mp held).1
    | inPlace absent _ used =>
      rw [absent]
      exact whole fun s below => loads s (used ▸ List.mem_append_left _ below)
    | plain absent _ used =>
      rw [absent]
      exact whole (used ▸ loads)

end Emission

end Code

namespace Program

/-- A program consists of a block for each temporary, which loads only those before it, with a store
behind it, and of a block for each output. -/
structure LaidOut (p : Program) (blocks outputs : List (List Instruction)) : Prop where
  instructions : p.instructions = blocks.flatMap (fun block => block ++ [Instruction.store]) ++
    outputs.flatten
  temporaryCount : blocks.length = p.temporaryCount
  outputCount : outputs.length = p.outputCount
  temporary : ∀ k block, blocks[k]? = some block → Code.Block k block
  output : ∀ output ∈ outputs, Code.Block p.temporaryCount output

variable {p : Program} {blocks outputs : List (List Instruction)}

/-- A program of well-formed code is laid out in blocks. -/
theorem laidOut_ofCodes (eliminate : Bool) {roots : List Code}
    (wellFormed : ∀ root ∈ roots, root.WellFormed) :
    let shared := Sharing.hoisted eliminate roots
    (ofCodes eliminate roots).LaidOut (shared.map (Code.emitWhole shared))
      (roots.map (Code.emit shared false)) := by
  intro shared
  -- There is a block for each shared stem and one for each root.
  refine ⟨?_, List.length_map _, List.length_map _, ?_, ?_⟩
  · rw [List.flatMap_map]
    exact congrArg (· ++ _) (List.flatMap_congr fun stem _ => Code.emitTemporary_eq stem)
  · intro k block found
    obtain ⟨small, rfl⟩ := List.getElem?_eq_some_iff.mp found
    rw [List.getElem_map]
    rw [List.length_map] at small
    -- A temporary only loads what stands before it.
    have stem := Sharing.wellFormed_of_classes wellFormed
      (Sharing.mem_classes_of_hoisted (List.getElem_mem small))
    have split : shared = shared.take k ++ shared[k] :: shared.drop (k + 1) := by
      rw [List.cons_getElem_drop_succ, List.take_append_drop]
    have loads := Sharing.ordered_hoisted eliminate roots _ _ _ split
    have known : shared.take k <+: shared := List.take_prefix k shared
    have block := Code.block_emitWhole stem.count
      (fun c inside divisor => Code.block_emit known (stem.parts c inside) divisor) loads
    rwa [List.length_take_of_le small.le] at block
  · intro output inside
    obtain ⟨root, given, rfl⟩ := List.mem_map.mp inside
    exact Code.block_emit List.prefix_rfl (wellFormed root given) false fun _ _ inside => inside

/-- The temporaries are filled one after the other. -/
private theorem heights_temporaries {rest : List (List Instruction)} : ∀ {done : Nat},
    (∀ k block, rest[k]? = some block → Code.Block (done + k) block) →
      Heights.run ⟨0, done⟩ (rest.flatMap fun block => block ++ [Instruction.store]) =
        some ⟨0, done + rest.length⟩ := by
  -- Every block finds the stack empty, since the store behind the one before has taken its value.
  induction rest with
  | nil =>
    intro done _
    rfl
  | cons block rest ih =>
    intro done each
    have own : Heights.run ⟨0, done⟩ block = some ⟨1, done⟩ := (each 0 block rfl).heights 0
    -- Behind the first block there is a temporary more to load from.
    have later := @ih (done + 1) fun k block found => by
      rw [Nat.add_right_comm]
      exact each (k + 1) block found
    rw [List.flatMap_cons, Heights.run_append, Heights.run_append, own, Option.bind_some,
      Heights.run_single]
    -- The store moves the value of the block to the temporaries.
    show Heights.run ⟨0, done + 1⟩ _ = _
    rw [later, List.length_cons, Nat.add_right_comm, Nat.add_assoc]

/-- A program that is laid out in blocks leaves its outputs on the stack. -/
theorem LaidOut.heights (laidOut : p.LaidOut blocks outputs) :
    Heights.run ⟨0, 0⟩ p.instructions = some ⟨p.outputCount, p.temporaryCount⟩ := by
  have temporaries := @heights_temporaries blocks 0 fun k block found => by
    rw [Nat.zero_add]
    exact laidOut.temporary k block found
  rw [laidOut.instructions, Heights.run_append, temporaries, Option.bind_some, Nat.zero_add,
    laidOut.temporaryCount, Code.heights_flatten laidOut.output, Nat.zero_add, laidOut.outputCount]

/-- Every instruction of a program that is laid out in blocks stands where it belongs. -/
theorem LaidOut.placed (laidOut : p.LaidOut blocks outputs) {before after : List Instruction}
    {i : Instruction} (split : p.instructions = before ++ i :: after) :
    Code.Placed p.temporaryCount before i after := by
  -- Seen from the whole program, every block may load all the temporaries.
  have block : ∀ block ∈ blocks, Code.Block p.temporaryCount block := by
    intro block inside
    obtain ⟨k, found⟩ := List.mem_iff_getElem?.mp inside
    have small := (List.getElem?_eq_some_iff.mp found).1
    exact (laidOut.temporary k block found).mono (laidOut.temporaryCount ▸ small.le)
  have all : Code.Throughout (Code.Placed p.temporaryCount) [] p.instructions [] := by
    rw [laidOut.instructions]
    refine .append (.flatMap (fun is inside left right => ?_) _ _)
      (Code.placed_flatten laidOut.output _ _)
    -- Nothing is asked of the store behind a block.
    exact .append ((block is inside).placed _ _) (.single trivial)
  simpa using all before i after split

end Program

end Clifford
