import Mathlib
import Clifford.Code.Program

/-! Emission of code: what is emitted for a tree is a load or its operands and its own instruction, and
a program is made of the bodies of its temporaries and of the code of its outputs. -/

namespace Clifford

namespace Code

/-- Induction over trees, from all operands to the root. -/
@[elab_as_elim]
theorem induction {P : Code → Prop}
    (node : ∀ head scale operands, (∀ code ∈ operands, P code) → P (node head scale operands)) :
    ∀ code, P code := by
  -- The operands are a list of trees, for which the property holds of every member.
  refine @Code.rec P (fun operands => ∀ code ∈ operands, P code) node ?_ ?_
  · simp
  · intro code rest first later
    exact List.forall_mem_cons.mpr ⟨first, later⟩

/-- The temporary that code is loaded from, if it is shared. -/
def loaded (shared : List Code) (divisor : Bool) (code : Code) : Option Nat :=
  if code.isCandidate divisor then shared.idxOf? code.stem else none

/-- The instructions of code with its operands, whether it is shared or not. -/
def emitWhole (shared : List Code) (code : Code) : List Instruction :=
  joinOperands code.head.marksOperands (emitOperands shared code.head 0 code.operands)
    ++ [code.instruction]

variable {shared : List Code}

/-- Code is emitted as a load or as a whole. -/
theorem emit_eq (divisor : Bool) (code : Code) :
    emit shared divisor code = match code.loaded shared divisor with
      | some index => [⟨code.checksum, code.scale, .load index⟩]
      | none => emitWhole shared code := by
  cases code
  rw [emit]
  rfl

/-- A temporary is emitted as a whole and then stored. -/
theorem emitTemporary_eq (stem : Code) :
    emitTemporary shared stem = emitWhole shared stem ++ [Instruction.store] := by
  simp [emitTemporary, emitWhole]

/-- The temporary that code is loaded from holds its stem. -/
theorem stem_of_loaded {divisor : Bool} {code : Code} {index : Nat}
    (found : code.loaded shared divisor = some index) : shared[index]? = some code.stem := by
  -- Code is looked up by its stem.
  rw [loaded] at found
  split at found
  · obtain ⟨bound, same, -⟩ := List.idxOf?_eq_some_iff.mp found
    rw [List.getElem?_eq_getElem bound, same]
  · simp at found

/-- Code that is emitted as a load is loaded from a temporary that holds its stem. -/
theorem stem_of_emit_load {divisor : Bool} {code : Code} {checksum : Nat} {q : Rat} {index : Nat}
    (emitted : emit shared divisor code = [⟨checksum, q, .load index⟩]) :
    shared[index]? = some code.stem := by
  rw [emit_eq] at emitted
  cases found : code.loaded shared divisor with
  | some other =>
    obtain ⟨-, -, rfl⟩ : code.checksum = checksum ∧ code.scale = q ∧ other = index := by
      simpa [found] using emitted
    exact stem_of_loaded found
  | none =>
    -- A whole tree ends in its own operation.
    rw [found, emitWhole] at emitted
    have last := congrArg List.getLast? emitted
    simp [instruction] at last

variable {P : Instruction → Prop}

/-- What holds of marks and of the instructions of operands holds of the joined operands. -/
theorem forall_joinOperands (mark : ∀ length, P (Instruction.operand length)) {marked : Bool}
    {operands : List (List Instruction)} (each : ∀ is ∈ operands, ∀ i ∈ is, P i) :
    ∀ i ∈ joinOperands marked operands, P i := by
  intro i inside
  -- An instruction among the joined ones is the mark of an operand or belongs to it.
  obtain ⟨is, member, given⟩ := List.mem_flatMap.mp inside
  cases marked with
  | false => exact each is member i given
  | true =>
    rcases List.mem_cons.mp given with rfl | later
    · exact mark is.length
    · exact each is member i later

/-- What holds of the instructions of every operand holds of the instructions of all of them. -/
theorem forall_emitOperands {operands : List Code}
    (each : ∀ code ∈ operands, ∀ divisor, ∀ i ∈ emit shared divisor code, P i) (head : Head) :
    ∀ position, ∀ is ∈ emitOperands shared head position operands, ∀ i ∈ is, P i := by
  -- Every operand is emitted at its own position.
  induction operands with
  | nil => simp [emitOperands]
  | cons code rest ih =>
    intro position is inside
    rw [emitOperands] at inside
    rcases List.mem_cons.mp inside with rfl | later
    · exact each code (by simp) _
    · exact ih (fun c member => each c (List.mem_cons_of_mem _ member)) _ is later

/-- What holds of marks and loads holds of all that is emitted for code, if it holds of the operations
of the trees in it that are not loaded. -/
theorem forall_emit {R : Code → Prop} (mark : ∀ length, P (Instruction.operand length))
    (load : ∀ checksum q index, P ⟨checksum, q, .load index⟩)
    (below : ∀ {code}, R code → ∀ c ∈ code.operands, R c)
    (own : ∀ {code divisor}, R code → code.loaded shared divisor = none → P code.instruction)
    (code : Code) : ∀ divisor, R code → ∀ i ∈ emit shared divisor code, P i := by
  -- By induction on the tree: a load stands alone, and a whole tree has operands and a root.
  induction code using Code.induction with
  | node head scale operands ih =>
    intro divisor given i inside
    rw [emit_eq] at inside
    cases found : (node head scale operands).loaded shared divisor with
    | some index =>
      rw [found] at inside
      obtain rfl := List.mem_singleton.mp inside
      exact load _ _ _
    | none =>
      rw [found] at inside
      rcases List.mem_append.mp inside with operand | root
      · have each := forall_emitOperands (fun c member divisor =>
          ih c member divisor (below given c member)) head 0
        exact forall_joinOperands mark each i operand
      · obtain rfl := List.mem_singleton.mp root
        exact own given found

/-- Code is emitted without a store. -/
theorem emit_ne_store (code : Code) (divisor : Bool) :
    ∀ i ∈ emit shared divisor code, i.action ≠ .store :=
  -- Stores only close temporaries; a tree contributes loads, marks and operations.
  forall_emit (R := fun _ => True) (by simp [Instruction.operand]) (by simp) (fun _ _ _ => trivial)
    (fun _ _ => by simp [instruction]) code divisor trivial

/-- A whole tree is emitted without a store. -/
theorem emitWhole_ne_store (code : Code) : ∀ i ∈ emitWhole shared code, i.action ≠ .store := by
  intro i inside
  -- Neither the operands nor the root store anything.
  rcases List.mem_append.mp inside with operand | root
  · exact forall_joinOperands (by simp [Instruction.operand])
      (forall_emitOperands (fun c _ => emit_ne_store c) _ 0) i operand
  · obtain rfl := List.mem_singleton.mp root
    simp [instruction]

end Code

namespace Program

/-- The instructions of every temporary, each without the store that closes it. -/
def bodies : List Instruction → List (List Instruction)
  | [] => []
  | i :: rest =>
    if i.action = .store then [] :: bodies rest
    else match bodies rest with
      | [] => []
      | body :: others => (i :: body) :: others

theorem bodies_store {body rest : List Instruction} (none : ∀ i ∈ body, i.action ≠ .store) :
    bodies (body ++ Instruction.store :: rest) = body :: bodies rest := by
  -- The body grows backwards from the store that closes it.
  induction body with
  | nil => simp [bodies, Instruction.store]
  | cons i body ih =>
    rw [List.cons_append, bodies, if_neg (none i (by simp)),
      ih fun j inside => none j (List.mem_cons_of_mem _ inside)]

theorem bodies_flatMap {α : Type} (f : α → List Instruction) (xs : List α)
    (none : ∀ x ∈ xs, ∀ i ∈ f x, i.action ≠ .store) :
    bodies (xs.flatMap fun x => f x ++ [Instruction.store]) = xs.map f := by
  -- The first store closes the first body.
  induction xs with
  | nil => rfl
  | cons x xs ih =>
    rw [List.flatMap_cons, List.append_assoc, List.singleton_append,
      bodies_store (none x (by simp)), ih fun y inside => none y (List.mem_cons_of_mem _ inside),
      List.map_cons]

theorem splitStores_of_ne_store {is : List Instruction} (none : ∀ i ∈ is, i.action ≠ .store) :
    splitStores is = ([], is) := by
  -- Without a store everything is an output.
  induction is with
  | nil => rfl
  | cons i rest ih =>
    simp [splitStores, ih fun j inside => none j (List.mem_cons_of_mem _ inside), none i (by simp)]

theorem splitStores_store (body rest : List Instruction) :
    splitStores (body ++ Instruction.store :: rest) =
      (body ++ Instruction.store :: (splitStores rest).1, (splitStores rest).2) := by
  -- Whatever stands before a store is not an output.
  induction body with
  | nil => simp [splitStores, Instruction.store]
  | cons i body ih => simp [splitStores, ih]

theorem splitStores_flatMap {α : Type} (f : α → List Instruction) (xs : List α)
    (outputs : List Instruction) (none : ∀ i ∈ outputs, i.action ≠ .store) :
    splitStores ((xs.flatMap fun x => f x ++ [Instruction.store]) ++ outputs) =
      (xs.flatMap fun x => f x ++ [Instruction.store], outputs) := by
  -- Each store moves the split behind it.
  induction xs with
  | nil => simpa using splitStores_of_ne_store none
  | cons x xs ih =>
    simp only [List.flatMap_cons, List.append_assoc, List.cons_append, List.nil_append,
      splitStores_store, ih]

/-- A program splits into the temporaries and the outputs that it is made of. -/
theorem ofCodes_split (eliminate : Bool) (roots : List Code) :
    let shared := Sharing.hoisted eliminate roots
    (ofCodes eliminate roots).temporaries = shared.flatMap (Code.emitTemporary shared) ∧
      (ofCodes eliminate roots).outputs = roots.flatMap (Code.emit shared false) := by
  intro shared
  -- Every temporary ends in its store, and the outputs have none.
  have temporaries : shared.flatMap (Code.emitTemporary shared) =
      shared.flatMap fun stem => Code.emitWhole shared stem ++ [Instruction.store] :=
    List.flatMap_congr fun stem _ => Code.emitTemporary_eq stem
  have none : ∀ i ∈ roots.flatMap (Code.emit shared false), i.action ≠ .store := by
    intro i inside
    obtain ⟨code, -, given⟩ := List.mem_flatMap.mp inside
    exact Code.emit_ne_store code false i given
  have split := splitStores_flatMap (Code.emitWhole shared) shared _ none
  rw [← temporaries] at split
  exact ⟨congrArg Prod.fst split, congrArg Prod.snd split⟩

/-- The bodies of the temporaries of a program are its shared stems. -/
theorem ofCodes_bodies (eliminate : Bool) (roots : List Code) :
    let shared := Sharing.hoisted eliminate roots
    bodies (ofCodes eliminate roots).temporaries = shared.map (Code.emitWhole shared) := by
  intro shared
  rw [(ofCodes_split eliminate roots).1, ← bodies_flatMap _ _ fun stem _ => Code.emitWhole_ne_store stem]
  congr 1
  exact List.flatMap_congr fun stem _ => Code.emitTemporary_eq stem

end Program

end Clifford
