import Mathlib
import Clifford.Error

/-! Results that succeed: sequences and traversals of operations that can fail, taken apart. -/

namespace Clifford.Result

variable {α β : Type}

/-- A sequence succeeds when both of its operations do. -/
theorem bind_eq_ok {x : Result α} {f : α → Result β} {b : β} :
    x >>= f = .ok b ↔ ∃ a, x = .ok a ∧ f a = .ok b := by
  -- Both sides say the same for either form of the first result.
  cases x with
  | error cause => simp [bind, Except.bind]
  | ok a => simp [bind, Except.bind]

/-- A sequence fails where its first operation fails, or the second one after it. -/
theorem bind_eq_error {x : Result α} {f : α → Result β} {cause : Error} :
    x >>= f = .error cause ↔ x = .error cause ∨ ∃ a, x = .ok a ∧ f a = .error cause := by
  cases x with
  | error other => simp [bind, Except.bind]
  | ok a => simp [bind, Except.bind]

/-- A sequence that starts with a success goes on with its value. -/
@[simp] theorem ok_bind (a : α) (f : α → Result β) : (Except.ok a : Result α) >>= f = f a := rfl

/-- A sequence that starts with a failure fails. -/
@[simp] theorem error_bind (cause : Error) (f : α → Result β) :
    (Except.error cause : Result α) >>= f = .error cause := rfl

/-- A value that is returned is a success. -/
@[simp] theorem pure_eq_ok (a : α) : (pure a : Result α) = .ok a := rfl

/-- A traversal succeeds when it succeeds on every entry. -/
theorem mapM_eq_ok {f : α → Result β} {xs : List α} {ys : List β} :
    xs.mapM f = .ok ys ↔ List.Forall₂ (fun x y => f x = .ok y) xs ys := by
  -- The traversal goes entry by entry, and so does the relation of the lists.
  induction xs generalizing ys with
  | nil => cases ys <;> simp
  | cons x xs ih =>
    rw [List.mapM_cons, bind_eq_ok]
    constructor
    · rintro ⟨y, first, rest⟩
      obtain ⟨zs, others, all⟩ := bind_eq_ok.mp rest
      cases all
      exact .cons first (ih.mp others)
    · rintro (_ | ⟨first, rest⟩)
      exact ⟨_, first, by rw [ih.mpr rest]; rfl⟩

/-- A traversal by an operation that always succeeds. -/
theorem mapM_ok {f : α → Result β} {g : α → β} {xs : List α} (succeeds : ∀ x ∈ xs, f x = .ok (g x)) :
    xs.mapM f = .ok (xs.map g) := by
  rw [mapM_eq_ok, List.forall₂_map_right_iff, List.forall₂_same]
  exact succeeds

/-- A traversal whose operation succeeds on every entry. -/
theorem exists_mapM_ok {f : α → Result β} {xs : List α} (succeeds : ∀ x ∈ xs, ∃ y, f x = .ok y) :
    ∃ ys, xs.mapM f = .ok ys := by
  induction xs with
  | nil => exact ⟨[], rfl⟩
  | cons x xs ih =>
    obtain ⟨y, first⟩ := succeeds x (by simp)
    obtain ⟨ys, rest⟩ := ih fun x inside => succeeds x (List.mem_cons_of_mem _ inside)
    exact ⟨y :: ys, by rw [List.mapM_cons, first, rest]; rfl⟩

/-- Every result of a traversal comes from an entry. -/
theorem exists_of_mem_mapM {f : α → Result β} {xs : List α} {ys : List β}
    (mapped : xs.mapM f = .ok ys) {y : β} (inside : y ∈ ys) : ∃ x ∈ xs, f x = .ok y := by
  -- Results are paired with the entries that they come from.
  have pairs := mapM_eq_ok.mp mapped
  induction pairs with
  | nil => simp at inside
  | cons first rest ih =>
    rcases List.mem_cons.mp inside with rfl | later
    · exact ⟨_, List.mem_cons_self, first⟩
    · obtain ⟨x, member, image⟩ := ih (mapM_eq_ok.mpr rest) later
      exact ⟨x, List.mem_cons_of_mem _ member, image⟩

/-- A traversal whose operation has a result of one kind on every entry has only results of this kind. -/
theorem exists_mapM_forall {f : α → Result β} {xs : List α} {P : β → Prop}
    (each : ∀ x ∈ xs, ∃ y, f x = .ok y ∧ P y) : ∃ ys, xs.mapM f = .ok ys ∧ ∀ y ∈ ys, P y := by
  obtain ⟨ys, mapped⟩ := exists_mapM_ok fun x inside => (each x inside).imp fun _ => And.left
  refine ⟨ys, mapped, fun y inside => ?_⟩
  -- A result is the one that its entry is known to have.
  obtain ⟨x, member, made⟩ := exists_of_mem_mapM mapped inside
  obtain ⟨y', made', kind⟩ := each x member
  obtain rfl : y' = y := Except.ok.inj (made'.symm.trans made)
  exact kind

/-- A traversal fails where its operation fails on an entry. -/
theorem exists_of_mapM_error {f : α → Result β} {xs : List α} {cause : Error}
    (failed : xs.mapM f = .error cause) : ∃ x ∈ xs, f x = .error cause := by
  induction xs with
  | nil => cases failed
  | cons x xs ih =>
    rw [List.mapM_cons] at failed
    -- The first entry fails, or it has a result and the failure comes later.
    rcases bind_eq_error.mp failed with first | ⟨y, -, later⟩
    · exact ⟨x, List.mem_cons_self, first⟩
    · rcases bind_eq_error.mp later with rest | ⟨ys, -, done⟩
      · obtain ⟨z, inside, given⟩ := ih rest
        exact ⟨z, List.mem_cons_of_mem _ inside, given⟩
      · cases done

/-- Every entry of a traversal that succeeds has a result. -/
theorem exists_of_mapM_mem {f : α → Result β} {xs : List α} {ys : List β}
    (mapped : xs.mapM f = .ok ys) {x : α} (inside : x ∈ xs) : ∃ y ∈ ys, f x = .ok y := by
  -- Entries are paired with the results that they have.
  have pairs := mapM_eq_ok.mp mapped
  induction pairs with
  | nil => simp at inside
  | cons first rest ih =>
    rcases List.mem_cons.mp inside with rfl | later
    · exact ⟨_, List.mem_cons_self, first⟩
    · obtain ⟨y, member, image⟩ := ih (mapM_eq_ok.mpr rest) later
      exact ⟨y, List.mem_cons_of_mem _ member, image⟩

/-- What holds of every result of a traversal holds of whatever its operation gives on an entry. -/
theorem forall_mapM {f : α → Result β} {xs : List α} {ys : List β} {P : β → Prop}
    (mapped : xs.mapM f = .ok ys) : (∀ y ∈ ys, P y) ↔ ∀ x ∈ xs, ∀ y, f x = .ok y → P y := by
  constructor
  · -- Each entry has one result, which is among those of the traversal.
    intro each x inside y made
    obtain ⟨z, member, image⟩ := exists_of_mapM_mem mapped inside
    obtain rfl := Except.ok.inj (made.symm.trans image)
    exact each y member
  · intro each y inside
    obtain ⟨x, member, image⟩ := exists_of_mem_mapM mapped inside
    exact each x member y image

/-- A traversal is undone by another one when it is undone on every entry. -/
theorem mapM_undone {f : α → Result β} {g : β → Result α} {xs : List α} :
    (∃ ys, xs.mapM f = .ok ys ∧ ys.mapM g = .ok xs) ↔
      ∀ x ∈ xs, ∃ y, f x = .ok y ∧ g y = .ok x := by
  simp only [mapM_eq_ok]
  -- There and back, the lists are related entry by entry.
  induction xs with
  | nil => simp
  | cons x xs ih =>
    rw [List.forall_mem_cons, ← ih]
    constructor
    · rintro ⟨ys, there, back⟩
      obtain _ | ⟨first, rest⟩ := there
      obtain _ | ⟨first', rest'⟩ := back
      exact ⟨⟨_, first, first'⟩, _, rest, rest'⟩
    · rintro ⟨⟨y, first, first'⟩, ys, rest, rest'⟩
      exact ⟨y :: ys, .cons first rest, .cons first' rest'⟩

section Functions

variable {γ δ α' β' : Type}

/-- A function of a success. -/
@[simp] theorem map_ok (f : α → β) (a : α) : f <$> (Except.ok a : Result α) = .ok (f a) := rfl

/-- Results that agree under two functions still agree after steps that respect this. -/
theorem map_bind_eq {x : Result α} {y : Result β} {f : α → γ} {g : β → γ} {p : α → Result α'}
    {q : β → Result β'} {f' : α' → δ} {g' : β' → δ} (same : f <$> x = g <$> y)
    (step : ∀ a b, f a = g b → f' <$> p a = g' <$> q b) :
    f' <$> (x >>= p) = g' <$> (y >>= q) := by
  -- Results that agree are both values or both failures.
  cases x with
  | error cause => cases y <;> simp_all
  | ok a =>
    cases y with
    | error cause => simp at same
    | ok b => exact step a b (Except.ok.inj same)

/-- Results that agree under two functions still agree after values are made of them alike. -/
theorem map_return_eq {x : Result α} {y : Result β} {f : α → γ} {g : β → γ} {p : α → α'}
    {q : β → β'} {f' : α' → δ} {g' : β' → δ} (same : f <$> x = g <$> y)
    (step : ∀ a b, f a = g b → f' (p a) = g' (q b)) :
    f' <$> (do return p (← x)) = g' <$> (do return q (← y)) :=
  map_bind_eq same fun a b agree => congrArg Except.ok (step a b agree)

end Functions

end Clifford.Result
