import Clifford.Proofs.Result

/-! Results for batches: a batch has a value where all of its rows have one, is refused where a row is,
and fails in any other way as every row does. -/

namespace Clifford.Result

variable {α β γ δ : Type} {count : Nat} {row : Nat → α → β} {row' : Nat → γ → δ}

/-- What the result for a batch says about the results for its rows. -/
structure RowWise (count : Nat) (row : Nat → α → β) (batch : Result α) (single : Nat → Result β) :
    Prop where
  value : ∀ a, batch = .ok a → ∀ i < count, single i = .ok (row i a)
  refused : ∀ refusal, batch = .error (.domain refusal) → 0 < count →
    ∃ i < count, ∃ own, single i = .error (.domain own)
  failed : ∀ cause, batch = .error cause → (∀ refusal, cause ≠ .domain refusal) →
    ∀ i < count, single i = .error cause

namespace RowWise

variable {batch : Result α} {single : Nat → Result β}

/-- A result of which every row has its part. -/
theorem of_map (each : ∀ i < count, single i = batch.map (row i)) : RowWise count row batch single where
  value a made i inside := by
    rw [each i inside, made]
    rfl
  refused refusal failed positive := by
    -- The first row stands for all of them, as they share their result.
    refine ⟨0, positive, refusal, ?_⟩
    rw [each 0 positive, failed]
    rfl
  failed cause failed _ i inside := by
    rw [each i inside, failed]
    rfl

/-- A result that does not depend on the rows. -/
theorem constant (x : Result α) : RowWise count (fun _ a => a) x fun _ => x :=
  of_map fun _ _ => by cases x <;> rfl

/-- Other results for the rows that are the same. -/
theorem congr {single' : Nat → Result β} (rowWise : RowWise count row batch single)
    (same : ∀ i < count, single' i = single i) : RowWise count row batch single' where
  value a made i inside := (same i inside).trans (rowWise.value a made i inside)
  refused refusal failed positive := by
    obtain ⟨i, inside, own, refused⟩ := rowWise.refused refusal failed positive
    exact ⟨i, inside, own, (same i inside).trans refused⟩
  failed cause failed other i inside :=
    (same i inside).trans (rowWise.failed cause failed other i inside)

/-- A value that is returned row by row. -/
theorem ok {a : α} (each : ∀ i < count, single i = .ok (row i a)) : RowWise count row (.ok a) single :=
  of_map each

/-- Sequences of operations that are carried out row by row. -/
theorem bind {f : α → Result γ} {g : Nat → β → Result δ} (first : RowWise count row batch single)
    (next : ∀ a, batch = .ok a → RowWise count row' (f a) fun i => g i (row i a)) :
    RowWise count row' (batch >>= f) fun i => single i >>= g i where
  value c made i inside := by
    obtain ⟨a, early, late⟩ := bind_eq_ok.mp made
    rw [first.value a early i inside, ok_bind, (next a early).value c late i inside]
  refused refusal failed positive := by
    -- A refusal of the batch comes from its first operation or from the second one after it.
    rcases bind_eq_error.mp failed with early | ⟨a, early, late⟩
    · obtain ⟨i, inside, own, refused⟩ := first.refused refusal early positive
      exact ⟨i, inside, own, by rw [refused, error_bind]⟩
    · obtain ⟨i, inside, own, refused⟩ := (next a early).refused refusal late positive
      exact ⟨i, inside, own, by rw [first.value a early i inside, ok_bind, refused]⟩
  failed cause failed other i inside := by
    rcases bind_eq_error.mp failed with early | ⟨a, early, late⟩
    · rw [first.failed cause early other i inside, error_bind]
    · rw [first.value a early i inside, ok_bind, (next a early).failed cause late other i inside]

/-- Folds whose steps are carried out row by row. -/
theorem foldlM {step : α → γ → Result α} {step' : β → γ → Result β}
    (each : ∀ a x, RowWise count row (step a x) fun i => step' (row i a) x) (xs : List γ) (a : α) :
    RowWise count row (xs.foldlM step a) fun i => xs.foldlM step' (row i a) := by
  -- The state of the batch has those of the rows, from which their folds go on.
  induction xs generalizing a with
  | nil => exact ok fun _ _ => rfl
  | cons x xs ih => exact (each a x).bind fun b _ => ih b

/-- A batch with rows is refused exactly where a row is. -/
theorem refused_iff (rowWise : RowWise count row batch single) (positive : 0 < count) :
    (∃ refusal, batch = .error (.domain refusal)) ↔
      ∃ i < count, ∃ refusal, single i = .error (.domain refusal) := by
  constructor
  · rintro ⟨refusal, failed⟩
    exact rowWise.refused refusal failed positive
  · rintro ⟨i, inside, refusal, refused⟩
    cases made : batch with
    | ok a =>
      rw [rowWise.value a made i inside] at refused
      cases refused
    | error cause =>
      -- Any other cause would be that of the row as well.
      by_contra other
      have same := rowWise.failed cause made (fun own equal => other ⟨own, by rw [equal]⟩) i inside
      rw [same] at refused
      cases refused
      exact other ⟨refusal, rfl⟩

end RowWise

section Map

variable {f : α → Result β} {x : Result α} {g : α → β}

/-- A result is the image of another one that has a value. -/
theorem map_eq_ok {b : β} : x.map g = .ok b ↔ ∃ a, x = .ok a ∧ g a = b := by
  cases x <;> simp [Except.map]

/-- A result fails as the one does that it is the image of. -/
theorem map_eq_error {cause : Error} : x.map g = .error cause ↔ x = .error cause := by
  cases x <;> simp [Except.map]

/-- A traversal of which every operation is the image of another one is the image of that traversal. -/
theorem mapM_map {g : β → δ} {f' : α → Result δ} (each : ∀ x, f' x = (f x).map g) (xs : List α) :
    xs.mapM f' = (xs.mapM f).map (List.map g) := by
  -- The first failing operation is the same before and after the images are taken.
  induction xs with
  | nil => rfl
  | cons x xs ih =>
    rw [List.mapM_cons, List.mapM_cons, each, ih]
    cases f x with
    | error cause => rfl
    | ok b => cases xs.mapM f <;> rfl

/-- A fold of which every step is the image of another one is the image of that fold. -/
theorem foldlM_map {step : β → α → Result β} {g : β → δ} {step' : δ → α → Result δ}
    (each : ∀ b x, step' (g b) x = (step b x).map g) (xs : List α) (b : β) :
    xs.foldlM step' (g b) = (xs.foldlM step b).map g := by
  induction xs generalizing b with
  | nil => rfl
  | cons x xs ih =>
    rw [List.foldlM_cons, List.foldlM_cons, each]
    cases step b x with
    | error cause => rfl
    | ok c => exact ih c

/-- What a fold keeps holds of its result. -/
theorem foldlM_keeps {P : β → Prop} {step : β → α → Result β} {xs : List α}
    (each : ∀ x ∈ xs, ∀ b c, P b → step b x = .ok c → P c) {b c : β} (start : P b)
    (run : xs.foldlM step b = .ok c) : P c := by
  -- The property is carried from one state to the next.
  induction xs generalizing b with
  | nil =>
    cases run
    exact start
  | cons x xs ih =>
    obtain ⟨d, first, later⟩ := bind_eq_ok.mp run
    obtain ⟨own, others⟩ := List.forall_mem_cons.mp each
    exact ih others (own b d start first) later

end Map

end Clifford.Result
