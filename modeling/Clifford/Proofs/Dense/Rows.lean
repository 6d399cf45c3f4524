import Clifford.Planner.Compute
import Clifford.Proofs.Plan.Rows

/-! Exponentials and logarithms of a batch are computed and refused row by row. -/

namespace Clifford

open Result

namespace DenseAlgebra

variable {α : Type} {count : Nat}

/-- A batch is refused where a row is. -/
theorem refuseIf_rowWise {rows : List α} (short : rows.length ≤ count) (p : α → Bool)
    (cause : DomainError) :
    RowWise count (fun _ u => u) (refuseIf (rows.any p) cause) fun i =>
      refuseIf ((oneRow i rows).any p) cause := by
  -- A batch in which nothing is found has no such row.
  cases found : rows.any p with
  | false =>
    refine .ok fun i _ => ?_
    have none : (oneRow i rows).any p = false := by
      rw [List.any_eq_false] at found ⊢
      exact fun x inside => found x (mem_of_mem_oneRow inside)
    rw [none]
    rfl
  | true =>
    -- The row that is found stands for itself.
    obtain ⟨x, inside, holds⟩ := List.any_eq_true.mp found
    obtain ⟨i, small, rfl⟩ := List.getElem_of_mem inside
    have own : refuseIf ((oneRow i rows).any p) cause = .error (.domain cause) := by
      rw [oneRow_eq (List.getElem?_eq_getElem small), List.any_cons, holds]
      rfl
    refine ⟨fun a made => ?_, fun _ _ _ => ⟨i, small.trans_le short, cause, own⟩, fun other failed no => ?_⟩
    · cases made
    · cases failed
      exact absurd rfl (no cause)

variable [Elementary α] (k : DenseAlgebra α)

/-- Exponentials are computed row by row. -/
theorem exp_rowWise {rows : List (List α)} (short : rows.length ≤ count) :
    RowWise count oneRow (k.exp rows) fun i => k.exp (oneRow i rows) := by
  -- Everything but the two refusals is computed for each row alone.
  simp only [exp, ← oneRow_map]
  refine .bind (.constant _) fun mask _ => ?_
  refine .bind (refuseIf_rowWise (by rwa [List.length_map]) _ _) fun _ _ => ?_
  refine .bind (refuseIf_rowWise (by rwa [List.length_map, List.length_map]) _ _) fun _ _ => ?_
  exact .ok fun i _ => congrArg Except.ok (oneRow_zipWith i _ _ _).symm

/-- Logarithms are computed row by row. -/
theorem log_rowWise {rows : List (List α)} (short : rows.length ≤ count) :
    RowWise count oneRow (k.log rows) fun i => k.log (oneRow i rows) := by
  -- The four refusals look at one column each, which is computed row by row itself.
  simp only [log, ← oneRow_map, ← oneRow_zip, ← oneRow_zipWith]
  refine .bind (.constant _) fun bivectors _ => .bind (.constant _) fun scalars _ => ?_
  refine .bind (refuseIf_rowWise (by simpa using short) _ _) fun _ _ => ?_
  refine .bind (refuseIf_rowWise (by simpa using short) _ _) fun _ _ => ?_
  refine .bind (refuseIf_rowWise (by simp; omega) _ _) fun _ _ => ?_
  refine .bind (refuseIf_rowWise (by simp; omega) _ _) fun _ _ => ?_
  exact .ok fun i _ => rfl

/-- Every row has an exponential. -/
theorem length_exp {rows images : List (List α)} (made : k.exp rows = .ok images) :
    images.length = rows.length := by
  -- Behind the refusals every row has its image.
  obtain ⟨mask, -, rest⟩ := bind_eq_ok.mp made
  obtain ⟨-, -, rest⟩ := bind_eq_ok.mp rest
  obtain ⟨-, -, done⟩ := bind_eq_ok.mp rest
  cases done
  simp

/-- Every row has a logarithm. -/
theorem length_log {rows images : List (List α)} (made : k.log rows = .ok images) :
    images.length = rows.length := by
  -- Behind the refusals every row has its image.
  obtain ⟨bivectors, -, rest⟩ := bind_eq_ok.mp made
  obtain ⟨scalars, -, rest⟩ := bind_eq_ok.mp rest
  obtain ⟨-, -, rest⟩ := bind_eq_ok.mp rest
  obtain ⟨-, -, rest⟩ := bind_eq_ok.mp rest
  obtain ⟨-, -, rest⟩ := bind_eq_ok.mp rest
  obtain ⟨-, -, done⟩ := bind_eq_ok.mp rest
  cases done
  simp

end DenseAlgebra

/-- Evaluation in floating point is row by row. -/
theorem Algebra.floating_rowWise {α : Type} [Elementary α] (A : Algebra) :
    (A.floating (α := α)).RowWise where
  single f count rows short := by
    refine .bind (.constant _) fun k _ => ?_
    cases f with
    | exp => exact k.exp_rowWise short
    | log => exact k.log_rowWise short
  length f rows images made := by
    obtain ⟨k, -, computed⟩ := bind_eq_ok.mp made
    cases f with
    | exp => exact k.length_exp computed
    | log => exact k.length_log computed

end Clifford
