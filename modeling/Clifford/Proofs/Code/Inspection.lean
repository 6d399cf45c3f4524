import Clifford.Proofs.Code.Complete

/-! Inspection: the stems inside divisors and arguments of transcendental functions, on whose values it
depends whether a formula is accepted. -/

namespace Clifford

namespace Code

variable {stem : Code}

/-- The stems that can be shared in the operand of a node that is looked at before it is used: the
divisor of a quotient, and the argument of a transcendental function. -/
def inspected (code : Code) : List Code :=
  match code.operands.getLast? with
  | some operand =>
    if code.head.standsAlone then candidates (code.head.dividesBy 1) operand else []
  | none => []

/-- What can be shared below a stem that can be shared in code can be shared in that code. -/
theorem candidates_below (code : Code) : ∀ divisor, stem ∈ candidates divisor code →
    ∀ s ∈ candidatesOf stem.head 0 stem.operands, s ∈ candidates divisor code := by
  -- By induction on the tree: below an operand nothing new is found, and the root has all its
  -- operands.
  induction code using Code.induction with
  | node head scale operands ih =>
    intro divisor member s inside
    rcases mem_candidates.mp member with ⟨i, code, found, below⟩ | ⟨-, rfl⟩
    · exact mem_candidates.mpr (.inl ⟨i, code, found,
        ih code (List.mem_of_getElem? found) _ below s inside⟩)
    · rw [candidates]
      exact List.mem_append_left _ inside

end Code

namespace Sharing

open Code

variable {roots : List Code} {stem : Code}

/-- The stems that are looked at before they are used, anywhere in several trees. -/
def inspected (roots : List Code) : List Code := (classes roots).flatMap Code.inspected

/-- Everything below an inspected stem is inspected. -/
theorem inspected_below (member : stem ∈ inspected roots) :
    ∀ s ∈ candidatesOf stem.head 0 stem.operands, s ∈ inspected roots := by
  intro s inside
  -- The node that the stem is inspected for inspects everything below it as well.
  obtain ⟨c, known, given⟩ := List.mem_flatMap.mp member
  refine List.mem_flatMap.mpr ⟨c, known, ?_⟩
  rw [Code.inspected] at given ⊢
  split at given
  · split at given
    · rename_i operand last alone
      rw [if_pos alone]
      exact candidates_below operand _ given s inside
    · simp at given
  · simp at given

/-- Several trees have every stem that can be shared once. -/
theorem nodup_classes (roots : List Code) : (classes roots).Nodup := nodup_eraseDups _

/-- Every stem that can be shared stands behind all that can be shared below it. -/
theorem postordered_classes (roots : List Code) : Postordered (classes roots) := by
  intro before stem after split s inside
  -- A stem is listed where it occurs first, and behind the first occurrences of what stands before
  -- it.
  obtain ⟨first, later, all, known⟩ := split_eraseDups split
  exact known s (postordered_flatMap roots first stem later all s inside)

/-- A stem that stands alone is hoisted. -/
theorem hoisted_of_standsAlone {eliminate : Bool} (wellFormed : ∀ root ∈ roots, root.WellFormed)
    (known : stem ∈ classes roots) (alone : stem.head.standsAlone = true) :
    stem ∈ hoisted eliminate roots := by
  obtain ⟨root, -, inside⟩ := mem_classes.mp known
  have own := stem_of_candidate root false inside
  have count := (wellFormed_of_classes wellFormed known).count
  -- The stem requires itself.
  have required : stem ∈ stem.requirements := by
    obtain ⟨head, scale, operands⟩ := stem
    obtain rfl : (1 : Rat) = scale := congrArg Code.scale own
    cases head with
    | unary op =>
      obtain ⟨arg, rfl⟩ := List.length_eq_one_iff.mp count
      have transcendental : op.isTranscendental = true := alone
      rw [requirements, if_pos transcendental]
      exact List.mem_cons_self
    | binary op =>
      obtain ⟨dividend, divisor, rfl⟩ := List.length_eq_two.mp count
      cases op with
      | divide => exact List.mem_cons_self
      | _ => cases alone
    | _ => cases alone
  -- What is required by a candidate is hoisted.
  have wanted : stem ∈ (classes roots).flatMap requirements :=
    List.mem_flatMap.mpr ⟨stem, known, required⟩
  simp only [hoisted, List.mem_filter]
  exact ⟨known, by simp [wanted]⟩

end Sharing

end Clifford
