import Clifford.Code.Lowering
import Clifford.Proofs.Code.Signature
import Clifford.Proofs.Multivector.Order

/-! The order of code: by fingerprint and then by shape, it is total, and it tells apart all code that
differs in more than the multiplier of its result, also where fingerprints collide. -/

namespace Clifford

open Std

/-- Lists are compared entry by entry. -/
theorem compareLists_eq {α : Type} (cmp : α → α → Ordering) :
    compareLists cmp = List.compareLex cmp := by
  funext as bs
  -- Both look at the heads first, and at the tails where these are equal.
  induction as generalizing bs with
  | nil => cases bs <;> rfl
  | cons a as ih =>
    cases bs with
    | nil => rfl
    | cons b bs => rw [compareLists, ih, List.compareLex_cons_cons]

instance {α : Type} (cmp : α → α → Ordering) [TransCmp cmp] : TransCmp (compareLists cmp) := by
  rw [compareLists_eq]
  infer_instance

instance {α : Type} (cmp : α → α → Ordering) [LawfulEqCmp cmp] :
    LawfulEqCmp (compareLists cmp) := by
  rw [compareLists_eq]
  infer_instance

namespace Code

/-- Code is compared by two comparisons in turn. -/
theorem compare_eq : Code.compare =
    compareLex (fun a b => Ord.compare a.checksum b.checksum)
      (fun a b => compareLists (compareLists compareRat) a.shape b.shape) := rfl

instance : TransCmp Code.compare := by
  -- Each of the two comparisons is an order on what it looks at.
  have := transCmp_on (Ord.compare : Nat → Nat → Ordering) Code.checksum
  have := transCmp_on (compareLists (compareLists compareRat)) Code.shape
  rw [compare_eq]
  infer_instance

/-- The instructions of code end with that of its root. -/
theorem exists_instructions (code : Code) : ∃ is : List Instruction, ∀ q,
    (code.withScale q).instructions = is ++ [⟨code.checksum, q, .perform code.head⟩] := by
  obtain ⟨head, scale, operands⟩ := code
  -- The multiplier of the root stands in the last instruction alone.
  refine ⟨joinOperands head.marksOperands (operandInstructions operands), fun q => ?_⟩
  rw [withScale, instructions, instruction]
  rfl

/-- The shape of code lists the signatures of all instructions but the last, which has no multiplier. -/
theorem exists_shape (code : Code) : ∃ inner last, code.shape = inner ++ [last] ∧
    ∀ q, (code.withScale q).shape = code.shape ∧
      (code.withScale q).signature = inner ++ [last ++ [q]] := by
  obtain ⟨is, own⟩ := code.exists_instructions
  -- Only the last place of the list of instructions is listed without its multiplier.
  have shape (q : Rat) : (code.withScale q).shape = is.map Instruction.signature ++
      [Instruction.key ⟨code.checksum, 1, .perform code.head⟩] := by
    rw [Code.shape, own, List.mapIdx_append]
    refine congrArg₂ _ (List.ext_getElem (by simp) fun i left right => ?_) (by simp [Instruction.key])
    have inside : i < is.length := by simpa using left
    simp [Instruction.signature, inside.ne]
  have self : code.withScale code.scale = code := by
    cases code
    rfl
  have whole := self ▸ shape code.scale
  refine ⟨_, _, whole, fun q => ⟨(shape q).trans whole.symm, ?_⟩⟩
  rw [signature, own, List.map_append]
  rfl

variable {a b c : Code} {q : Rat}

/-- The multiplier of a tree has no part in its fingerprint. -/
@[simp] theorem checksum_withScale (code : Code) : (code.withScale q).checksum = code.checksum := by
  -- The fingerprint is made of the operation and the keys of the operands.
  cases code
  rw [withScale, checksum, checksum]
  rfl

/-- The multiplier of a tree has no part in its shape. -/
@[simp] theorem shape_withScale (code : Code) : (code.withScale q).shape = code.shape := by
  -- The one multiplier that is not listed is that of the result.
  obtain ⟨inner, last, -, others⟩ := code.exists_shape
  exact (others q).1

/-- Well-formed code of one shape differs at most in the multiplier of its result. -/
theorem stem_eq_of_shape (left : a.WellFormed) (right : b.WellFormed) (same : a.shape = b.shape) :
    a.stem = b.stem := by
  -- The same shape and the same multiplier make the same signature, which code can be read back from.
  obtain ⟨inner, last, shape, others⟩ := a.exists_shape
  obtain ⟨inner', last', shape', others'⟩ := b.exists_shape
  obtain ⟨rfl, rfl⟩ : inner = inner' ∧ last = last' := by
    simpa [shape, shape'] using same
  -- With the multiplier one on both sides, the signatures are those of the stems.
  exact eq_of_signature left.withScale right.withScale ((others 1).2.trans (others' 1).2.symm)

/-- Well-formed code compares as equal exactly when it differs at most in the multiplier of its
result. -/
theorem compare_eq_eq (left : a.WellFormed) (right : b.WellFormed) :
    compare a b = .eq ↔ a.stem = b.stem := by
  -- The shape decides where the fingerprints agree, and a stem has one shape and one fingerprint.
  rw [compare_eq, compareLex_eq_eq, LawfulEqCmp.compare_eq_iff_eq, LawfulEqCmp.compare_eq_iff_eq]
  constructor
  · exact fun same => stem_eq_of_shape left right same.2
  · intro same
    have checksums := congrArg checksum same
    have shapes := congrArg shape same
    rw [stem, stem, checksum_withScale, checksum_withScale] at checksums
    rw [stem, stem, shape_withScale, shape_withScale] at shapes
    exact ⟨checksums, shapes⟩

end Code

end Clifford
