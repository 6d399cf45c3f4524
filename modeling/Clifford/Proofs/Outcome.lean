import Clifford.Proofs.Result

/-! Results that concur: two computations of the same shape have related values or the same failure, or
this holds unless one of them overflows. -/

namespace Clifford.Result

variable {α β γ δ : Type} {R : α → β → Prop} {S : γ → δ → Prop} {x : Result α} {y : Result β}

/-- Two results have related values, or the same failure. -/
inductive Alike (R : α → β → Prop) : Result α → Result β → Prop
  | ok {a : α} {b : β} (related : R a b) : Alike R (.ok a) (.ok b)
  | error (cause : Error) : Alike R (.error cause) (.error cause)

namespace Alike

/-- Results that are alike with equal values are equal. -/
theorem eq {x y : Result α} (alike : Alike Eq x y) : x = y := by
  cases alike with
  | ok same => rw [same]
  | error => rfl

/-- A result is alike itself. -/
theorem refl (x : Result α) : Alike Eq x x := by
  cases x with
  | ok a => exact .ok rfl
  | error cause => exact .error cause

/-- An operation that comes before two others may fail. -/
theorem after (x : Result α) {f : α → Result γ} {g : α → Result δ}
    (next : ∀ a, x = .ok a → Alike S (f a) (g a)) : Alike S (x >>= f) (x >>= g) := by
  cases x with
  | ok a => exact next a rfl
  | error cause => exact .error cause

/-- Sequences of operations are alike step by step. -/
theorem bind {f : α → Result γ} {g : β → Result δ} (first : Alike R x y)
    (next : ∀ a b, R a b → Alike S (f a) (g b)) : Alike S (x >>= f) (y >>= g) := by
  cases first with
  | ok related => exact next _ _ related
  | error cause => exact .error cause

/-- Folds over one list are alike. -/
theorem foldlM {ι : Type} {f : γ → ι → Result γ} {g : δ → ι → Result δ}
    (each : ∀ i c d, S c d → Alike S (f c i) (g d i)) (is : List ι) :
    ∀ {c : γ} {d : δ}, S c d → Alike S (is.foldlM f c) (is.foldlM g d) := by
  -- The states stay related, so the rest of both folds starts from related ones.
  induction is with
  | nil => exact fun related => .ok related
  | cons i is ih =>
    intro c d related
    rw [List.foldlM_cons, List.foldlM_cons]
    exact (each i c d related).bind fun _ _ => ih

end Alike

/-- Two results have related values, unless one of them is an overflow. -/
inductive Concur (R : α → β → Prop) : Result α → Result β → Prop
  | ok {a : α} {b : β} (related : R a b) : Concur R (.ok a) (.ok b)
  | left {y : Result β} : Concur R (.error .quotientOverflow) y
  | right {x : Result α} : Concur R x (.error .quotientOverflow)

namespace Concur

/-- Values that are related more closely than asked for. -/
theorem imp {R' : α → β → Prop} (concur : Concur R x y) (weaker : ∀ a b, R a b → R' a b) :
    Concur R' x y := by
  -- A closer relation changes the values alone, and overflows stay what they are.
  cases concur with
  | ok related => exact .ok (weaker _ _ related)
  | left => exact .left
  | right => exact .right

/-- A result concurs with itself if it fails by overflow alone. -/
theorem same {R : α → α → Prop} (fails : ∀ cause, x = .error cause → cause = .quotientOverflow)
    (related : ∀ a, x = .ok a → R a a) : Concur R x x := by
  -- A value is related to itself, and any failure is the overflow that is let through.
  cases x with
  | ok a => exact .ok (related a rfl)
  | error cause => exact fails cause rfl ▸ .left

/-- Values of results that concur are related. -/
theorem of_ok {a : α} {b : β} (concur : Concur R x y) (first : x = .ok a) (second : y = .ok b) :
    R a b := by
  subst first second
  cases concur with
  | ok related => exact related

/-- Where the second result is a value, so is the first, or it is an overflow. -/
theorem of_right {b : β} (concur : Concur R x y) (second : y = .ok b) :
    x = .error .quotientOverflow ∨ ∃ a, x = .ok a ∧ R a b := by
  subst second
  -- The second result is no overflow, so only the first one can be.
  cases concur with
  | ok related => exact .inr ⟨_, rfl, related⟩
  | left => exact .inl rfl

/-- A result that concurs with itself is a value or an overflow. -/
theorem of_self {R : α → α → Prop} (concur : Concur R x x) :
    x = .error .quotientOverflow ∨ ∃ a, x = .ok a ∧ R a a := by
  cases x with
  | ok a => exact .inr ⟨a, rfl, concur.of_ok rfl rfl⟩
  | error cause => cases concur <;> exact .inl rfl

/-- Values of results that concur are related and come from these results. -/
theorem given (concur : Concur R x y) : Concur (fun a b => R a b ∧ x = .ok a ∧ y = .ok b) x y := by
  cases concur with
  | ok related => exact .ok ⟨related, rfl, rfl⟩
  | left => exact .left
  | right => exact .right

/-- Sequences of operations concur step by step. -/
theorem bind {f : α → Result γ} {g : β → Result δ} (first : Concur R x y)
    (next : ∀ a b, R a b → Concur S (f a) (g b)) : Concur S (x >>= f) (y >>= g) := by
  -- An overflow of the first operation is one of the whole sequence.
  cases first with
  | ok related => exact next _ _ related
  | left => exact .left
  | right => exact .right

/-- Traversals of related lists concur. -/
theorem mapM {f : α → Result γ} {g : β → Result δ} {xs : List α} {ys : List β}
    (pairs : List.Forall₂ R xs ys) (each : ∀ a b, R a b → Concur S (f a) (g b)) :
    Concur (List.Forall₂ S) (xs.mapM f) (ys.mapM g) := by
  -- Both traversals stop at the first entry on which they do not agree.
  induction pairs with
  | nil => exact .ok .nil
  | cons first _ ih =>
    rw [List.mapM_cons, List.mapM_cons]
    exact (each _ _ first).bind fun c d related => ih.bind fun cs ds rest => .ok (.cons related rest)

/-- Folds over related lists concur. -/
theorem foldlM {f : γ → α → Result γ} {g : δ → β → Result δ} {xs : List α} {ys : List β}
    (pairs : List.Forall₂ R xs ys)
    (each : ∀ a b, R a b → ∀ c d, S c d → Concur S (f c a) (g d b)) :
    ∀ {c : γ} {d : δ}, S c d → Concur S (xs.foldlM f c) (ys.foldlM g d) := by
  -- The states stay related, so the rest of both folds starts from related ones.
  induction pairs with
  | nil => exact fun related => .ok related
  | cons first _ ih =>
    intro c d related
    rw [List.foldlM_cons, List.foldlM_cons]
    exact (each _ _ first c d related).bind fun _ _ => ih

end Concur

end Clifford.Result
