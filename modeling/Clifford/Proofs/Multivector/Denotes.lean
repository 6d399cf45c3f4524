import Clifford.Proofs.Dense.Linear
import Clifford.Proofs.Multivector.Bladewise
import Clifford.Proofs.Multivector.Sum

/-! What symbolic multivectors denote: a dense vector for every assignment of numbers to their
indeterminates, which multiples, reversals, parts, sums and products carry over. -/

namespace Clifford

open Finsupp

namespace Multivector

variable {dim : Nat} (F : Functions dim) (ρ : Nat → Rat)

/-- The coefficient of a blade at an assignment, under the deferred function. -/
noncomputable def coefficientAt (a : Multivector) (blade : Nat) : Option Rat :=
  if blade ∈ a.elements then
    if a.isPlain then some ((Reading.assigned ρ).read a blade)
    else (F.number a.op ((Reading.assigned ρ).read a blade)).map (a.opScale * ·)
  else some 0

/-- A multivector of a space with whole coefficients and admitted powers has the coefficients of a
dense vector. -/
structure Denotes (bound : Nat) (a : Multivector) (x : Dense) : Prop where
  inSpace : a.Over dim 0
  scale : Dyadic 0 a.opScale
  admitted : AdmittedEntries ρ bound a.entries
  coefficient : ∀ blade, a.coefficientAt F ρ blade = some (x blade)

namespace Denotes

variable {F ρ} {bound : Nat} {a b : Multivector} {x y : Dense}

/-- The coefficients of a plain multivector are its values. -/
theorem read (denotes : a.Denotes F ρ bound x) (plain : a.isPlain = true) :
    (Reading.assigned ρ).read a = x := by
  -- Without a deferred function the coefficient is the value on the blade.
  funext blade
  have coefficient := denotes.coefficient blade
  rw [coefficientAt, plain] at coefficient
  by_cases present : blade ∈ a.elements
  · simpa [present] using coefficient
  · -- A blade without a term has no value either.
    rw [Reading.read_of_absent _ present]
    simpa [present] using coefficient

/-- A plain multivector denotes its values. -/
theorem of_read (inSpace : a.Over dim 0) (plain : a.Plain)
    (admitted : AdmittedEntries ρ bound a.entries) (value : (Reading.assigned ρ).read a = x) :
    a.Denotes F ρ bound x where
  inSpace := inSpace
  scale := by
    rw [plain.2]
    exact Dyadic.one 0
  admitted := admitted
  coefficient blade := by
    have isPlain : a.isPlain = true := by simp [isPlain, plain.1]
    rw [coefficientAt, isPlain, ← value]
    by_cases present : blade ∈ a.elements
    · simp [present]
    · simp [present, Reading.read_of_absent _ present]

/-- A multivector denotes the same at an assignment that agrees on the ids below the bound. -/
theorem congr (denotes : a.Denotes F ρ bound x) {ρ' : Nat → Rat} {bound' : Nat}
    (agree : ∀ id < bound, ρ' id = ρ id) (le : bound ≤ bound') : a.Denotes F ρ' bound' x where
  inSpace := denotes.inSpace
  scale := denotes.scale
  admitted e inside p member := (denotes.admitted e inside p member).congr agree le
  coefficient blade := by
    -- Every monomial keeps its value, and so does the sum of them.
    have same : (Reading.assigned ρ').read a = (Reading.assigned ρ).read a := by
      show (List.map _ _).sum = (List.map _ _).sum
      congr 1
      refine List.map_congr_left fun e inside => ?_
      rw [Reading.weight, Reading.weight,
        Reading.assigned_congr (denotes.admitted e inside) agree]
    rw [← denotes.coefficient blade, coefficientAt, coefficientAt, same]

/-- What a multivector denotes vanishes where it has no term. -/
theorem absent (denotes : a.Denotes F ρ bound x) {blade : Nat} (missing : blade ∉ a.elements) :
    x blade = 0 := by
  have coefficient := denotes.coefficient blade
  rw [coefficientAt, if_neg missing] at coefficient
  exact (Option.some.inj coefficient).symm

/-- The blades of a multivector lie in the space. -/
theorem element_lt (denotes : a.Denotes F ρ bound x) {blade : Nat} (present : blade ∈ a.elements) :
    -- Blades in the space carry all terms.
    blade < dim := by
  obtain ⟨t, member, rfl⟩ := List.mem_map.mp present
  exact denotes.inSpace.bounded t member

/-- What a multivector denotes lies in the space. -/
theorem bounded (denotes : a.Denotes F ρ bound x) {blade : Nat} (nonzero : x blade ≠ 0) :
    blade < dim := by
  by_contra outside
  exact nonzero (denotes.absent fun present => outside (denotes.element_lt present))

/-- Nothing denotes zero. -/
theorem zero : Multivector.zero.Denotes F ρ bound 0 := by
  refine of_read ⟨⟨?_, ?_⟩, ?_, ?_⟩ ⟨rfl, rfl⟩ ?_ rfl
  -- All of its conditions are about terms, of which there are none.
  all_goals simp [Multivector.zero, elements, entries, DyadicEntries, AdmittedEntries]

end Denotes

/-- Every coefficient multiplied by a factor of its blade. -/
def rescaled (factor : Nat → Rat) (a : Multivector) : Multivector :=
  { terms := a.terms.map fun t =>
      ⟨t.element, t.monomials.map fun m => ⟨m.coefficient * factor t.element, m.powers⟩⟩ }

/-- The entries of a rescaled multivector. -/
theorem entries_rescaled (factor : Nat → Rat) (a : Multivector) :
    (a.rescaled factor).entries = a.entries.map fun e =>
      ⟨e.element, ⟨e.monomial.coefficient * factor e.element, e.monomial.powers⟩⟩ := by
  simp [entries, rescaled, Term.entries, List.flatMap_map, List.map_flatMap, Function.comp_def]

/-- Factors other than zero keep the canonical form. -/
theorem canonical_rescaled {factor : Nat → Rat} (nonzero : ∀ e, factor e ≠ 0) {a : Multivector}
    (canonical : a.Canonical) : (a.rescaled factor).Canonical := by
  -- Terms and monomials stay where they are.
  refine ⟨fun u inside => ?_, ?_⟩
  · obtain ⟨t, member, rfl⟩ := List.mem_map.mp inside
    have each := canonical.terms t member
    refine ⟨by simpa using each.nonempty, fun n monomial => ?_, ?_⟩
    · obtain ⟨m, given, rfl⟩ := List.mem_map.mp monomial
      have before := each.monomials m given
      exact ⟨mul_ne_zero before.nonzero (nonzero _), before.increasing, before.keyed⟩
    · -- The order of monomials looks at powers alone.
      exact List.pairwise_map.mpr (each.ordered.imp fun before => before.congr rfl rfl)
  · have same : (a.rescaled factor).elements = a.elements := by
      simp [elements, rescaled]
    rw [same]
    exact canonical.ordered

/-- Whole factors other than zero keep a multivector in its space. -/
theorem Over.rescaled {factor : Nat → Rat} {a : Multivector} {k : Nat} (inSpace : a.Over dim k)
    (whole : ∀ e, Dyadic 0 (factor e)) (nonzero : ∀ e, factor e ≠ 0) :
    (a.rescaled factor).Over dim k := by
  refine ⟨canonical_rescaled nonzero inSpace.canonical, fun u inside => ?_, fun e inside => ?_⟩
  · obtain ⟨t, member, rfl⟩ := List.mem_map.mp inside
    exact inSpace.bounded t member
  · rw [entries_rescaled] at inside
    obtain ⟨f, given, rfl⟩ := List.mem_map.mp inside
    exact (inSpace.dyadic f given).mul (whole _)

/-- The value of a rescaled multivector is multiplied on every blade. -/
theorem read_rescaled {M : Type} [AddCommGroup M] [Module Rat M] (r : Reading M)
    (factor : Nat → Rat) (a : Multivector) :
    r.read (a.rescaled factor) = bladewise factor (r.read a) := by
  rw [Reading.read, Reading.read, entries_rescaled]
  -- Both sides are sums over the same entries.
  induction a.entries with
  | nil => simp
  | cons e rest ih =>
    rw [List.map_cons, weightedSum_cons, weightedSum_cons, map_add, map_smul, ih, Reading.weight,
      bladewise_single, smul_smul]

/-- A plain multivector whose coefficients are multiplied by whole factors denotes the multiples. -/
theorem Denotes.rescaled {F : Functions dim} {ρ : Nat → Rat} {bound : Nat} {a : Multivector}
    {x : Dense} {factor : Nat → Rat} (denotes : a.Denotes F ρ bound x) (plain : a.isPlain = true)
    (whole : ∀ e, Dyadic 0 (factor e)) (nonzero : ∀ e, factor e ≠ 0) :
    (a.rescaled factor).Denotes F ρ bound fun blade => factor blade * x blade := by
  -- The value on each blade is multiplied by its factor.
  refine of_read (denotes.inSpace.rescaled whole nonzero) ⟨rfl, rfl⟩ (fun e inside => ?_) ?_
  · rw [entries_rescaled] at inside
    obtain ⟨f, given, rfl⟩ := List.mem_map.mp inside
    exact denotes.admitted f given
  · rw [read_rescaled, ← denotes.read plain]
    funext blade
    exact bladewise_apply _ blade

end Multivector

end Clifford
