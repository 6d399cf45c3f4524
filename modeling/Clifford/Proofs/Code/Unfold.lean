import Clifford.Proofs.Code.Emit

/-! Unfolding of linear code: loads are replaced by the instructions of the temporaries they refer to
until none is left, which gives back the code that was lowered. -/

namespace Clifford

namespace Instruction

/-- Whether an instruction loads a temporary. -/
def isLoad (i : Instruction) : Bool :=
  match i.action with
  | .load _ => true
  | _ => false

/-- An instruction without the length that a mark of an operand holds. -/
def unmeasured (i : Instruction) : Instruction :=
  match i.action with
  | .operand _ => operand 0
  | _ => i

/-- Instructions that leave their result under another multiplier. -/
def rescaleLast (q : Rat) (is : List Instruction) : List Instruction :=
  is.modifyLast fun i => { i with scale := q }

/-- One round of unfolding: every load gives way to the instructions of its temporary, with its own
multiplier at their root. -/
def unfoldLoads (temporaries : List (List Instruction)) (is : List Instruction) :
    List Instruction :=
  is.flatMap fun i => match i.action with
    | .load index => match temporaries[index]? with
      | some body => rescaleLast i.scale body
      | none => [i]
    | _ => [i]

/-- Unfolding ends, after finitely many rounds, in some instructions up to the lengths in marks. -/
def UnfoldsTo (temporaries : List (List Instruction)) (is js : List Instruction) : Prop :=
  ∃ rounds, (∀ i ∈ (unfoldLoads temporaries)^[rounds] is, ¬ i.isLoad) ∧
    ((unfoldLoads temporaries)^[rounds] is).map unmeasured = js.map unmeasured

variable {temporaries : List (List Instruction)}

theorem unfoldLoads_append (is js : List Instruction) :
    unfoldLoads temporaries (is ++ js) = unfoldLoads temporaries is ++ unfoldLoads temporaries js :=
  List.flatMap_append

private theorem iterate_append (rounds : Nat) : ∀ is js : List Instruction,
    (unfoldLoads temporaries)^[rounds] (is ++ js) =
      (unfoldLoads temporaries)^[rounds] is ++ (unfoldLoads temporaries)^[rounds] js := by
  -- Every round treats the instructions one by one.
  induction rounds with
  | zero => exact fun _ _ => rfl
  | succ rounds ih =>
    intro is js
    rw [Function.iterate_succ_apply, Function.iterate_succ_apply, Function.iterate_succ_apply,
      unfoldLoads_append, ih]

private theorem unfoldLoads_of_no_load {is : List Instruction} (none : ∀ i ∈ is, ¬ i.isLoad) :
    unfoldLoads temporaries is = is := by
  -- Only a load is replaced.
  induction is with
  | nil => rfl
  | cons i rest ih =>
    have first : ¬ i.isLoad := none i (by simp)
    have later := ih fun j inside => none j (List.mem_cons_of_mem _ inside)
    rw [unfoldLoads, List.flatMap_cons, ← unfoldLoads, later]
    cases action : i.action <;> simp_all [isLoad]

private theorem iterate_of_no_load {is : List Instruction} (none : ∀ i ∈ is, ¬ i.isLoad)
    (rounds : Nat) : (unfoldLoads temporaries)^[rounds] is = is :=
  Function.iterate_fixed (unfoldLoads_of_no_load none) rounds

namespace UnfoldsTo

variable {is is' js js' : List Instruction}

/-- Instructions without a load are unfolded already. -/
theorem refl (none : ∀ i ∈ is, ¬ i.isLoad) : UnfoldsTo temporaries is is := ⟨0, none, rfl⟩

/-- Instructions one after the other unfold one after the other. -/
theorem append (first : UnfoldsTo temporaries is js) (second : UnfoldsTo temporaries is' js') :
    UnfoldsTo temporaries (is ++ is') (js ++ js') := by
  -- The half that is done early stays as it is while the other half is unfolded further.
  obtain ⟨m, noneLeft, left⟩ := first
  obtain ⟨n, noneRight, right⟩ := second
  have both : (unfoldLoads temporaries)^[m + n] (is ++ is') =
      (unfoldLoads temporaries)^[m] is ++ (unfoldLoads temporaries)^[n] is' := by
    rw [iterate_append]
    congr 1
    · rw [Nat.add_comm, Function.iterate_add_apply, iterate_of_no_load noneLeft]
    · rw [Function.iterate_add_apply, iterate_of_no_load noneRight]
  refine ⟨m + n, ?_, ?_⟩
  · rw [both]
    intro i inside
    exact (List.mem_append.mp inside).elim (noneLeft i) (noneRight i)
  · rw [both, List.map_append, left, right, List.map_append]

/-- A round of unfolding comes before the others. -/
theorem of_round (rest : UnfoldsTo temporaries (unfoldLoads temporaries is) js) :
    UnfoldsTo temporaries is js := by
  -- The other rounds are followed from where this one ends.
  obtain ⟨rounds, none, same⟩ := rest
  exact ⟨rounds + 1, by rwa [Function.iterate_succ_apply], by rwa [Function.iterate_succ_apply]⟩

/-- The lengths in marks do not matter. -/
theorem congr (unfolds : UnfoldsTo temporaries is js)
    (same : js.map unmeasured = js'.map unmeasured) : UnfoldsTo temporaries is js' := by
  -- The same rounds are followed, and only what they end in is compared.
  obtain ⟨rounds, none, equal⟩ := unfolds
  exact ⟨rounds, none, equal.trans same⟩

/-- A mark of an operand stays, whatever its length. -/
theorem mark (m n : Nat) : UnfoldsTo temporaries [operand m] [operand n] := by
  -- A mark is no load, so that nothing is unfolded.
  have none : ∀ i ∈ [operand m], ¬ i.isLoad := by simp [isLoad, operand]
  exact (refl none).congr (by simp [unmeasured, operand])

end UnfoldsTo

end Instruction

namespace Code

open Instruction

variable {shared : List Code}

/-- A stem under a multiplier is emitted as a whole like the code that it is the stem of. -/
theorem rescaleLast_emitWhole (code : Code) :
    rescaleLast code.scale (emitWhole shared code.stem) = emitWhole shared code := by
  -- The fingerprint at the root does not depend on the multiplier.
  cases code
  simp [emitWhole, rescaleLast, stem, withScale, instruction, checksum, Code.head, operands, scale,
    List.modifyLast_concat]

private theorem unfoldLoads_loaded {divisor : Bool} {code : Code} {index : Nat}
    (found : code.loaded shared divisor = some index) :
    unfoldLoads (shared.map (emitWhole shared)) [⟨code.checksum, code.scale, .load index⟩] =
      emitWhole shared code := by
  -- The temporary holds the stem, which gets the multiplier of the load.
  have body : (shared.map (emitWhole shared))[index]? = some (emitWhole shared code.stem) := by
    rw [List.getElem?_map, stem_of_loaded found, Option.map_some]
  rw [unfoldLoads, List.flatMap_singleton]
  simp only [body, rescaleLast_emitWhole]

private theorem joinOperands_unfold {temporaries : List (List Instruction)} {operands : List Code}
    (each : ∀ code ∈ operands, ∀ divisor,
      UnfoldsTo temporaries (emit shared divisor code) code.instructions)
    (marked : Bool) (head : Head) : ∀ position,
      UnfoldsTo temporaries (joinOperands marked (emitOperands shared head position operands))
        (joinOperands marked (operandInstructions operands)) := by
  -- Operands unfold one after the other; marks stay, and only their lengths may differ.
  induction operands with
  | nil => exact fun _ => .refl (by simp [joinOperands, emitOperands])
  | cons code rest ih =>
    intro position
    have first := each code (by simp) (head.dividesBy position)
    have later := ih (fun c member => each c (List.mem_cons_of_mem _ member)) (position + 1)
    rw [emitOperands, operandInstructions, joinOperands, joinOperands, List.flatMap_cons,
      List.flatMap_cons, ← joinOperands, ← joinOperands]
    refine UnfoldsTo.append ?_ later
    cases marked with
    | false => exact first
    | true =>
      exact (UnfoldsTo.mark _ _).append first

private theorem emitWhole_unfold {temporaries : List (List Instruction)} (code : Code)
    (each : ∀ operand ∈ code.operands, ∀ divisor,
      UnfoldsTo temporaries (emit shared divisor operand) operand.instructions) :
    UnfoldsTo temporaries (emitWhole shared code) code.instructions := by
  -- The instruction of the root is no load and comes last on both sides.
  obtain ⟨head, scale, operands⟩ := code
  rw [instructions, emitWhole]
  exact (joinOperands_unfold each _ _ 0).append (.refl (by simp [isLoad, instruction]))

/-- Emitted code unfolds to the code that it was emitted for. -/
theorem emit_unfold (code : Code) : ∀ divisor,
    UnfoldsTo (shared.map (emitWhole shared)) (emit shared divisor code) code.instructions := by
  -- A load unfolds in one round to the whole tree, whose operands are smaller trees.
  induction code using Code.induction with
  | node head scale operands ih =>
    intro divisor
    have whole := emitWhole_unfold (node head scale operands) ih
    rw [emit_eq]
    cases found : (node head scale operands).loaded shared divisor with
    | none => exact whole
    | some index =>
      refine .of_round ?_
      rw [unfoldLoads_loaded found]
      exact whole

/-- The fingerprint and the length of an exterior product do not tell the order of its factors. -/
theorem collision (a b : Code) :
    let left := node (.variadic .wedge 2) 1 [a, b]
    let right := node (.variadic .wedge 2) 1 [b, a]
    left.checksum = right.checksum ∧ left.instructions.length = right.instructions.length := by
  constructor
  · -- Fingerprints of factors are joined bit by bit, in any order.
    simp [checksum, operandKeys, Head.checksum, Nat.or_comm]
  · simp [instructions, operandInstructions, joinOperands, Head.marksOperands]
    omega

end Code

namespace Program

open Code

/-- Sharing is faithful: the outputs of a compiled program unfold to the lowered code of its formulas,
and code is only ever loaded from a temporary that equals it up to the multiplier at the root, although
the keys of different code collide. -/
theorem compile_unfold (eliminate : Bool) {roots : List Expr} {codes : List Code}
    (lowered : roots.mapM Expr.lower = .ok codes) :
    ∃ p, compile eliminate roots = .ok p ∧
      Instruction.UnfoldsTo (bodies p.temporaries) p.outputs (codes.flatMap Code.instructions) ∧
      (∀ (c d : Code) (x y : Bool) (k l index : Nat) (q r : Rat),
        emit (Sharing.hoisted eliminate codes) x c = [⟨k, q, .load index⟩] →
        emit (Sharing.hoisted eliminate codes) y d = [⟨l, r, .load index⟩] → c.stem = d.stem) ∧
      ∀ a b : Code,
        let left := node (.variadic .wedge 2) 1 [a, b]
        let right := node (.variadic .wedge 2) 1 [b, a]
        left.checksum = right.checksum ∧ left.instructions.length = right.instructions.length := by
  refine ⟨ofCodes eliminate codes, by rw [compile, lowered]; rfl, ?_, ?_, collision⟩
  · -- The outputs are emitted tree by tree, and each of them unfolds.
    have unfolds (code : Code) : Instruction.UnfoldsTo
        ((Sharing.hoisted eliminate codes).map (emitWhole (Sharing.hoisted eliminate codes)))
        (emit (Sharing.hoisted eliminate codes) false code) code.instructions := emit_unfold code false
    rw [ofCodes_bodies, (ofCodes_split eliminate codes).2]
    clear lowered
    generalize Sharing.hoisted eliminate codes = shared at unfolds
    induction codes with
    | nil =>
      have done : Instruction.UnfoldsTo (shared.map (emitWhole shared)) [] [] := .refl (by simp)
      exact done
    | cons code rest ih => exact (unfolds code).append ih
  · -- Both are loaded from the same temporary, which holds the stem of each.
    intro c d x y k l index q r first second
    have same := (stem_of_emit_load first).symm.trans (stem_of_emit_load second)
    exact Option.some.inj same

/-- A wedge, a multiple of it and the wedge of its factors in the other order: the first two share a
temporary, and the third has one of its own in spite of its key. -/
theorem compile_unfold_wedges :
    let a := Expr.wedge (.leaf 0) (.leaf 1)
    let b := Expr.wedge (.leaf 1) (.leaf 0)
    let roots := [Expr.unary .exp a, Expr.scaled 3 a, Expr.unary .sqrt b, b]
    let left := Code.leaf (.input 0) 1
    let right := Code.leaf (.input 1) 1
    let codes := [node (.unary .exp) 1 [node (.variadic .wedge 2) 1 [left, right]],
      node (.variadic .wedge 2) 3 [left, right],
      node (.unary .sqrt) 1 [node (.variadic .wedge 2) 1 [right, left]],
      node (.variadic .wedge 2) 1 [right, left]]
    roots.mapM Expr.lower = .ok codes ∧
      ∃ p, compile true roots = .ok p ∧
        Instruction.UnfoldsTo (bodies p.temporaries) p.outputs (codes.flatMap Code.instructions) := by
  intro a b roots left right codes
  -- Lowering is evaluated, and the theorem says the rest.
  have lowered : roots.mapM Expr.lower = .ok codes := by decide +kernel
  obtain ⟨p, compiled, unfolds, -⟩ := compile_unfold true lowered
  exact ⟨lowered, p, compiled, unfolds⟩

end Program

end Clifford
