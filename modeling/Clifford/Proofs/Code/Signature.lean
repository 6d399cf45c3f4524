import Clifford.Proofs.Code.Trace

/-! Signatures: the operations of code with their fields and multipliers, without the fingerprints, from
which the code can be read back. -/

namespace Clifford

/-- Operations are told apart by their numbers. -/
theorem Opcode.number_injective : Function.Injective Opcode.number := by
  -- The number of an operation is its place among all of them.
  have listed (op : Opcode) : all[op.number]? = some op := by cases op <;> rfl
  intro op op' same
  rw [← Option.some_inj, ← listed, ← listed, same]

/-- Constants are told apart by their numbers. -/
theorem ConstantKind.number_injective : Function.Injective ConstantKind.number := by
  -- There are few enough kinds to compare all of them.
  intro kind kind' same
  cases kind <;> cases kind' <;> first | rfl | cases same

namespace Head

/-- Everything but a constant is read back from its operation and its only field. -/
theorem ofOpcode?_opcode {head : Head} (other : head.opcode ≠ .constant) :
    ofOpcode? head.opcode (head.fields.headD 0) = some head := by
  -- The operation names the node, and the field is the one that it needs.
  cases head with
  | input | component => rfl
  | constant => exact absurd rfl other
  | unary op => cases op <;> rfl
  | binary op => cases op <;> rfl
  | variadic op count => cases op <;> rfl

/-- A constant is the only node with its operation. -/
theorem constant_of_opcode {head : Head} (same : head.opcode = .constant) :
    ∃ kind element, head = .constant kind element := by
  -- Every other operation is listed under another node.
  cases head with
  | constant kind element => exact ⟨kind, element, rfl⟩
  | input | component => cases same
  | unary op => cases op <;> cases same
  | binary op => cases op <;> cases same
  | variadic op => cases op <;> cases same

/-- Nodes are told apart by their operations and their fields. -/
theorem eq_of_fields {h k : Head} (opcode : h.opcode = k.opcode) (fields : h.fields = k.fields) :
    h = k := by
  -- The kind of a constant is a field too, while all other nodes have one field at most.
  by_cases constant : h.opcode = .constant
  · obtain ⟨kind, element, rfl⟩ := constant_of_opcode constant
    obtain ⟨kind', element', rfl⟩ := constant_of_opcode (opcode ▸ constant)
    obtain ⟨number, rest⟩ := List.cons.inj fields
    rw [ConstantKind.number_injective number, (List.cons.inj rest).1]
  · rw [← Option.some_inj, ← ofOpcode?_opcode constant, ← ofOpcode?_opcode (opcode ▸ constant), opcode,
      fields]

/-- A node is no load, no mark and no store. -/
theorem opcode_ne (head : Head) :
    head.opcode ≠ .load ∧ head.opcode ≠ .operand ∧ head.opcode ≠ .store := by
  -- The three operations that move values are listed for no node.
  cases head with
  | input | constant | component => simp [opcode]
  | unary op => cases op <;> simp [opcode, UnaryOp.opcode]
  | binary op => cases op <;> simp [opcode, BinaryOp.opcode]
  | variadic op => cases op <;> simp [opcode, VariadicOp.opcode]

end Head

/-- Actions are told apart by their operations and their fields. -/
theorem Action.eq_of_fields {a b : Action} (opcode : a.opcode = b.opcode)
    (fields : a.fields = b.fields) : a = b := by
  -- What moves values has an operation of its own, which no node has.
  cases a with
  | perform h =>
    obtain ⟨load, operand, store⟩ := h.opcode_ne
    cases b with
    | perform k => rw [Head.eq_of_fields opcode fields]
    | load => exact absurd opcode load
    | operand => exact absurd opcode operand
    | store => exact absurd opcode store
  | load index =>
    cases b with
    | perform k => exact absurd opcode.symm k.opcode_ne.1
    | load => rw [(List.cons.inj fields).1]
    | operand | store => cases opcode
  | operand length =>
    cases b with
    | perform k => exact absurd opcode.symm k.opcode_ne.2.1
    | operand => rw [(List.cons.inj fields).1]
    | load | store => cases opcode
  | store =>
    cases b with
    | perform k => exact absurd opcode.symm k.opcode_ne.2.2
    | store => rfl
    | load | operand => cases opcode

namespace Instruction

/-- The numbers of an instruction with its multiplier. -/
def signature (i : Instruction) : List Rat := i.key ++ [i.scale]

variable {i j : Instruction}

/-- Instructions with the same signature do the same. -/
theorem eq_of_signature (same : i.signature = j.signature) :
    i.action = j.action ∧ i.scale = j.scale := by
  -- The multiplier comes last, behind the number of the operation and its fields.
  obtain ⟨key, scale⟩ := List.append_inj' same rfl
  obtain ⟨number, fields⟩ := List.cons.inj ((List.map_injective_iff.mpr Nat.cast_injective) key)
  exact ⟨Action.eq_of_fields (Opcode.number_injective number) fields, (List.cons.inj scale).1⟩

end Instruction

namespace Trace

variable {t : Trace} {is js : List Instruction}

/-- Instructions with the same signatures are followed alike. -/
theorem run_eq_of_signature (same : is.map Instruction.signature = js.map Instruction.signature) :
    t.run is = t.run js := by
  -- A step looks at the action and the multiplier only, and the signature has both.
  induction is generalizing t js with
  | nil =>
    obtain rfl := List.map_eq_nil_iff.mp same.symm
    rfl
  | cons i is ih =>
    obtain ⟨j, js, rfl, first, rest⟩ := List.map_eq_cons_iff.mp same.symm
    obtain ⟨action, scale⟩ := Instruction.eq_of_signature first
    have step : t.step i = t.step j := by rw [Trace.step, Trace.step, action, scale]
    rw [run, run, List.foldlM_cons, List.foldlM_cons, step]
    exact Option.bind_congr fun next _ => ih rest.symm

end Trace

namespace Code

variable {a b : Code}

/-- Where nothing is shared, code is emitted as it stands. -/
theorem emit_nothing (code : Code) : ∀ divisor, emit [] divisor code = code.instructions := by
  -- By induction on the tree, since nothing is loaded.
  induction code using Code.induction with
  | node head scale operands ih =>
    intro divisor
    have below : ∀ position, emitOperands [] head position operands = operandInstructions operands := by
      induction operands with
      | nil => exact fun _ => rfl
      | cons code rest later =>
        intro position
        obtain ⟨first, others⟩ := List.forall_mem_cons.mp ih
        rw [emitOperands, operandInstructions, first, later others]
    have unshared : (node head scale operands).loaded [] divisor = none := by
      rw [loaded]
      split <;> rfl
    rw [emit_eq, unshared]
    show joinOperands head.marksOperands (emitOperands [] head 0 operands) ++ _ = _
    rw [below, instructions]

/-- Following the instructions of code reads the code back. -/
theorem run_instructions (wellFormed : a.WellFormed) :
    (Trace.run ⟨[], [], []⟩ a.instructions).map (·.stack) = some [a] := by
  -- Code without loads is rebuilt on the stack of a trace that has stored nothing.
  have known : ([] : List Code) <+: [] := List.prefix_rfl
  have follows := Trace.run_emit known wellFormed false
    (fun _ _ inside => absurd inside List.not_mem_nil) [] []
  rw [emit_nothing] at follows
  rw [follows]
  rfl

/-- The signatures of the instructions of code. -/
def signature (code : Code) : List (List Rat) := code.instructions.map Instruction.signature

/-- Code is told apart by its signature. -/
theorem eq_of_signature (left : a.WellFormed) (right : b.WellFormed)
    (same : a.signature = b.signature) : a = b := by
  -- The same signatures are followed alike, so both trees are what is read back.
  have read := run_instructions left
  rw [Trace.run_eq_of_signature same, run_instructions right] at read
  exact (List.cons.inj (Option.some.inj read)).1.symm

end Code

end Clifford
