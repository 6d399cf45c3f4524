import Clifford.Proofs.Result

/-! Results that fail: what sequences and traversals of operations can fail with, and what of it they
refuse as outside the domain of an operator. -/

namespace Clifford

/-- Causes that speak of numbers and of positions, not of what an operator is defined on. -/
inductive Error.Mechanical : Error → Prop
  | overflow : Mechanical .quotientOverflow
  | range : Mechanical .indexRange
  | nothing : Mechanical .emptyFold

namespace Result

variable {α β : Type} {E : Error → Prop} {P : DomainError → Prop} {x : Result α} {f : α → Result β}

/-- Whatever an operation fails with has a property. -/
def FailsOnly (E : Error → Prop) (x : Result α) : Prop := ∀ cause, x = .error cause → E cause

/-- Whatever an operation refuses as outside its domain has a property. -/
def RefusesOnly (P : DomainError → Prop) (x : Result α) : Prop :=
  ∀ refusal, x = .error (.domain refusal) → P refusal

namespace FailsOnly

/-- A value does not fail. -/
theorem ok (a : α) : FailsOnly E (.ok a : Result α) := by
  intro cause failed
  cases failed

/-- A failure has one cause. -/
theorem error {cause : Error} (holds : E cause) : FailsOnly E (.error cause : Result α) := by
  intro other failed
  cases failed
  exact holds

/-- A weaker property of the causes. -/
theorem mono {E' : Error → Prop} (fails : FailsOnly E x) (weaker : ∀ cause, E cause → E' cause) :
    FailsOnly E' x :=
  fun cause failed => weaker cause (fails cause failed)

/-- An overflow is mechanical. -/
theorem of_overflow (fails : ∀ cause, x = .error cause → cause = .quotientOverflow) :
    FailsOnly Error.Mechanical x := by
  intro cause failed
  obtain rfl := fails cause failed
  exact .overflow

/-- A sequence fails with what its first operation fails with, or the second one after it. -/
theorem bind (first : FailsOnly E x) (next : ∀ a, x = .ok a → FailsOnly E (f a)) :
    FailsOnly E (x >>= f) := by
  intro cause failed
  -- The first operation fails, or it gives the value that the second one fails on.
  rcases bind_eq_error.mp failed with early | ⟨a, made, late⟩
  · exact first cause early
  · exact next a made cause late

/-- A traversal fails with what its operation fails with on the entries. -/
theorem mapM {xs : List α} (each : ∀ x ∈ xs, FailsOnly E (f x)) : FailsOnly E (xs.mapM f) := by
  intro cause failed
  obtain ⟨x, inside, own⟩ := exists_of_mapM_error failed
  exact each x inside cause own

/-- A fold fails with what its operation fails with on the values that it comes to. -/
theorem foldlM {S : β → Prop} {g : β → α → Result β} {xs : List α}
    (each : ∀ x ∈ xs, ∀ b, S b → FailsOnly E (g b x) ∧ ∀ c, g b x = .ok c → S c) :
    ∀ {b : β}, S b → FailsOnly E (xs.foldlM g b) := by
  induction xs with
  | nil => exact fun _ => ok _
  | cons x xs ih =>
    intro b holds
    -- The value that the rest of the fold starts from is one of those that are spoken of.
    obtain ⟨own, others⟩ := List.forall_mem_cons.mp each
    rw [List.foldlM_cons]
    exact (own b holds).1.bind fun c made => ih others ((own b holds).2 c made)

/-- A mechanical failure is no refusal. -/
theorem unrefused (fails : FailsOnly Error.Mechanical x) : RefusesOnly P x := by
  -- None of the mechanical causes is one of a domain.
  intro refusal failed
  cases fails _ failed

end FailsOnly

/-- What an operation gives has a property, and whatever it fails with has another one. -/
structure Yields (S : α → Prop) (E : Error → Prop) (x : Result α) : Prop where
  value : ∀ a, x = .ok a → S a
  fails : FailsOnly E x

namespace Yields

variable {S : α → Prop} {T : β → Prop}

/-- A value with the property. -/
theorem ok {a : α} (holds : S a) : Yields S E (.ok a : Result α) :=
  ⟨fun _ same => Except.ok.inj same ▸ holds, .ok a⟩

/-- A failure has no value. -/
theorem error {cause : Error} (holds : E cause) : Yields S E (.error cause : Result α) where
  value _ given := by cases given
  fails := .error holds

/-- A sequence whose second operation asks for what the first one gives. -/
theorem bind (first : Yields S E x) (next : ∀ a, x = .ok a → S a → Yields T E (f a)) :
    Yields T E (x >>= f) where
  value b made := by
    obtain ⟨a, own, later⟩ := bind_eq_ok.mp made
    exact (next a own (first.value a own)).value b later
  fails := first.fails.bind fun a made => (next a made (first.value a made)).fails

end Yields

/-- An operation refuses what it fails with outside of its domain. -/
theorem refusesOnly_iff :
    RefusesOnly P x ↔ FailsOnly (fun cause => ∀ refusal, cause = .domain refusal → P refusal) x := by
  -- The causes outside of a domain are left out on either side.
  constructor
  · rintro refuses cause failed refusal rfl
    exact refuses refusal failed
  · exact fun fails refusal failed => fails _ failed refusal rfl

namespace RefusesOnly

/-- A value is not refused. -/
theorem ok (a : α) : RefusesOnly P (.ok a : Result α) := refusesOnly_iff.mpr (.ok a)

/-- A refusal has one cause. -/
theorem domain {refusal : DomainError} (holds : P refusal) :
    RefusesOnly P (.error (.domain refusal) : Result α) :=
  refusesOnly_iff.mpr <| .error fun _ same => Error.domain.inj same ▸ holds

/-- A weaker property of the refusals. -/
theorem mono {Q : DomainError → Prop} (refuses : RefusesOnly P x)
    (weaker : ∀ refusal, P refusal → Q refusal) : RefusesOnly Q x :=
  fun refusal failed => weaker refusal (refuses refusal failed)

/-- A sequence refuses what its first operation refuses, or the second one after it. -/
theorem bind (first : RefusesOnly P x) (next : ∀ a, x = .ok a → RefusesOnly P (f a)) :
    RefusesOnly P (x >>= f) :=
  refusesOnly_iff.mpr <| (refusesOnly_iff.mp first).bind fun a made =>
    refusesOnly_iff.mp (next a made)

/-- A traversal refuses what its operation refuses on the entries. -/
theorem mapM {xs : List α} (each : ∀ x ∈ xs, RefusesOnly P (f x)) : RefusesOnly P (xs.mapM f) :=
  refusesOnly_iff.mpr <| .mapM fun x inside => refusesOnly_iff.mp (each x inside)

end RefusesOnly

end Result

end Clifford
