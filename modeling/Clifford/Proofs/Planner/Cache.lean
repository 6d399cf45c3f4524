import Clifford.Planner.Session
import Clifford.Proofs.Code.Signature
import Clifford.Proofs.Planner.Meaning

/-! The plans that a planner keeps: they change no answer, a plan is shared by exactly the formulas with
the same lowered code over the same kinds of entities, and failures leave nothing behind. -/

namespace Clifford.Planner

/-- The place among the kept plans of the one for lowered formulas over kinds of entities, where a new one
is added at the end. -/
def place (planner : Planner) (codes : List Code) (kinds : List EntityKind) : Nat :=
  planner.plans.findIdx fun entry => entry.codes = codes && entry.kinds = kinds

variable {A : Algebra} {eliminate : Bool} {planner planner' next : Planner} {roots : List Expr}
  {kinds : List EntityKind} {codes : List Code} {p : Plan} {cause : Error}

/-- A compilation gives what is built from the lowered formulas, or fails as that does. -/
theorem Faithful.compile_eq (faithful : planner.Faithful A eliminate) :
    (planner.compile roots kinds).map Prod.fst = roots.mapM Expr.lower >>= fun codes =>
      Planner.build { algebra := A, eliminate } codes kinds := by
  -- What is built depends on the algebra and on the elimination alone.
  have built (codes : List Code) : planner.build codes kinds =
      Planner.build { algebra := A, eliminate } codes kinds := by
    rw [build, build, faithful.algebra, faithful.eliminates]
  cases lowered : roots.mapM Expr.lower with
  | error cause =>
    rw [Planner.compile, lowered]
    rfl
  | ok codes =>
    rw [Result.ok_bind, ← built]
    cases found : planner.find? codes kinds with
    | some plan =>
      rw [Planner.compile, lowered, Result.ok_bind, found]
      exact (faithful.built found).symm
    | none =>
      rw [compile_of_absent lowered found]
      cases planner.build codes kinds <;> rfl

section Calls

variable {α : Type} [Elementary α]

/-- A compilation that fails changes nothing. -/
theorem call_of_error {c : Call α} (compiles : c.compiles? = some (roots, kinds))
    (failed : planner.compile roots kinds = .error cause) : (planner.call c).2 = planner := by
  -- Each call that compiles goes on with the planner behind the compilation.
  cases c with
  | compile | compute =>
    cases compiles
    rw [call, failed]
  | reduce => cases compiles

/-- A compilation leads to the planner that keeps its plan. -/
theorem call_of_ok {c : Call α} (compiles : c.compiles? = some (roots, kinds))
    (made : planner.compile roots kinds = .ok (p, next)) : (planner.call c).2 = next := by
  cases c with
  | compile | compute =>
    cases compiles
    rw [call, made]
  | reduce => cases compiles

/-- A call leads to the planner behind a compilation, or changes nothing. -/
theorem call_cases (planner : Planner) (c : Call α) : (planner.call c).2 = planner ∨
    ∃ roots kinds p, planner.compile roots kinds = .ok (p, (planner.call c).2) := by
  -- Only a reduction compiles nothing.
  cases compiles : c.compiles? with
  | none =>
    cases c with
    | compile | compute => cases compiles
    | reduce => exact .inl rfl
  | some request =>
    obtain ⟨roots, kinds⟩ := request
    cases made : planner.compile roots kinds with
    | error cause => exact .inl (call_of_error compiles made)
    | ok result => exact .inr ⟨roots, kinds, result.1, by rw [made, call_of_ok compiles made]⟩

/-- What compilations keep is kept by calls. -/
theorem holds_after {P : Planner → Prop}
    (step : ∀ {planner roots kinds p next}, P planner →
      planner.compile roots kinds = .ok (p, next) → P next) (calls : List (Call α)) :
    ∀ {planner : Planner}, P planner → P (planner.after calls) := by
  -- Each call compiles once at most.
  induction calls with
  | nil => exact fun holds => holds
  | cons c calls ih =>
    intro planner holds
    have next : P (planner.call c).2 := by
      rcases planner.call_cases c with same | ⟨roots, kinds, p, made⟩
      · rwa [same]
      · exact step holds made
    exact ih next

/-- Calls lead to a planner that compilations lead to as well. -/
theorem Reachable.after (reachable : planner.Reachable A eliminate) (calls : List (Call α)) :
    (planner.after calls).Reachable A eliminate :=
  holds_after (fun known made => known.compile made) calls reachable

end Calls

end Clifford.Planner
