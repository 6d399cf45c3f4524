import Clifford.Proofs.Blade.Complement
import Clifford.Proofs.Multivector.Bladewise
import Clifford.Proofs.Multivector.Sum

/-! Duals: every blade is replaced by its signed complement, which is a linear map on the values of
multivectors that leaves a sign when it is taken twice. -/

namespace Clifford

open Finsupp

section Values

variable {M : Type} [AddCommGroup M] [Module Rat M] {n : Nat}

/-- The linear map that replaces every blade by its signed complement. -/
noncomputable def dualValue (n : Nat) : (Nat →₀ M) →ₗ[Rat] (Nat →₀ M) :=
  lsum Rat fun e => ((Blade.complement e n).2 : Rat) • lsingle (Blade.complement e n).1

/-- The dual of a value on a single blade. -/
theorem dualValue_single (e : Nat) (x : M) :
    dualValue n (single e x) =
      ((Blade.complement e n).2 : Rat) • single (Blade.complement e n).1 x := by
  simp [dualValue]

/-- The dual of a value of the space is one. -/
theorem dualValue_mem {x : Nat →₀ M} (inSpace : x ∈ spaceValues M (2 ^ n)) :
    dualValue n x ∈ spaceValues M (2 ^ n) := by
  refine map_mem_of_single (fun e inside x => ?_) inSpace
  rw [dualValue_single]
  exact Submodule.smul_mem _ _ (single_mem_spaceValues (Blade.complement_lt inside) x)

/-- The linear map that multiplies the value on every blade by the sign that the dual leaves when it
is taken twice. -/
noncomputable def doubleDual (n : Nat) : (Nat →₀ M) →ₗ[Rat] (Nat →₀ M) :=
  bladewise fun e => (Blade.doubleDualSign n e : Rat)

/-- Taking the dual of a value of the space twice leaves a sign on every blade. -/
theorem dualValue_dualValue {x : Nat →₀ M} (inSpace : x ∈ spaceValues M (2 ^ n)) :
    dualValue n (dualValue n x) = doubleDual n x := by
  rw [← LinearMap.comp_apply]
  refine map_eq_of_single (fun e inside x => ?_) inSpace
  -- On a single blade the two signs multiply to the one of its grade.
  rw [LinearMap.comp_apply, doubleDual, bladewise_single, dualValue_single, map_smul, dualValue_single,
    Blade.complement_eq inside, Blade.complement_eq (Blade.lacking_lt inside),
    Blade.lacking_lacking, smul_smul, ← Blade.complement_signs inside]
  push_cast
  rfl

/-- The dual of a value of the space with the sign of every blade is that of its dual. -/
theorem dualValue_doubleDual {x : Nat →₀ M} (inSpace : x ∈ spaceValues M (2 ^ n)) :
    dualValue n (doubleDual n x) = doubleDual n (dualValue n x) := by
  -- Both are the dual taken three times.
  rw [← dualValue_dualValue inSpace, dualValue_dualValue (dualValue_mem inSpace)]

/-- The sign that the dual leaves when it is taken twice depends on the grade alone. -/
theorem gradewise_doubleDualSign (n : Nat) :
    Gradewise fun e => (Blade.doubleDualSign n e : Rat) := by
  -- The sign is read off the grade.
  intro a b same
  simp only [Blade.doubleDualSign, same]

end Values

namespace Multivector

variable {n k : Nat} {a : Multivector}

/-- The signed complement of an entry. -/
def dualEntry (n : Nat) (e : Entry) : Entry :=
  Entry.of (Blade.complement e.element n).1
    ((Blade.complement e.element n).2 * e.monomial.coefficient) e.monomial.powers

/-- The dual of a plain multivector collates the signed complements of its entries. -/
theorem dual_eq (plain : a.requirePlain = .ok ()) :
    a.dual n = collate (a.entries.map (dualEntry n)) := by
  rw [dual, plain, Result.ok_bind]
  congr 1
  refine List.map_congr_left fun e _ => ?_
  simp only [dualEntry]
  -- The sign is one or minus one.
  rcases Blade.complement_sign e.element n with one | minus <;> simp [*]

/-- The complements of some entries have the dual of their value. -/
theorem weightedSum_dualEntry {M : Type} [AddCommGroup M] [Module Rat M] (r : Reading M)
    (entries : List Entry) :
    weightedSum r.weight (entries.map (dualEntry n)) =
      dualValue n (weightedSum r.weight entries) := by
  -- The dual of a value is taken on every blade, as the signed complement of an entry is.
  induction entries with
  | nil => simp
  | cons e rest ih =>
    simp only [List.map_cons, weightedSum_cons, map_add, ih, map_smul]
    simp only [dualEntry, Entry.of, Reading.weight, dualValue_single, smul_smul, mul_comm]

/-- Plain multivectors of a space have a dual there, whose value is the dual of their value. -/
theorem exists_dual (small : k ≤ exactBits) (inSpace : a.Over (2 ^ n) k)
    (plain : a.op = .identity) :
    ∃ b, a.dual n = .ok b ∧ b.Over (2 ^ n) k ∧ b.Plain ∧
      (∀ e ∈ b.entries, ∃ f ∈ a.entries, f.monomial.powers = e.monomial.powers) ∧
      ∀ {M : Type} [AddCommGroup M] [Module Rat M] (r : Reading M),
        r.read b = dualValue n (r.read a) := by
  -- The complements have the powers and, up to sign, the coefficients of the entries.
  have required := requirePlain_eq_ok plain
  have dyadic : DyadicEntries k (a.entries.map (dualEntry n)) := by
    intro f inside
    obtain ⟨e, given, rfl⟩ := List.mem_map.mp inside
    simpa [dualEntry, Entry.of] using (Dyadic.intCast _).mul (inSpace.dyadic e given)
  have given {f : Entry} (inside : f ∈ a.entries.map (dualEntry n)) : ∃ e ∈ a.entries,
      dualEntry n e = f := List.mem_map.mp inside
  -- Complements lie in the space too, so that they are collected without a failure.
  obtain ⟨b, collated, inSpace', plain', source, value⟩ := collate_over (2 ^ n) small
    (fun f inside => by
      obtain ⟨e, member, rfl⟩ := given inside
      exact Blade.complement_lt (inSpace.element_lt member)) dyadic
    (fun f inside => by
      obtain ⟨e, member, rfl⟩ := given inside
      exact (inSpace.canonical.entry member).increasing)
    (fun f inside => by
      obtain ⟨e, member, rfl⟩ := given inside
      exact (inSpace.canonical.entry member).keyed) .identity 1
  refine ⟨b, (dual_eq required).trans collated, inSpace', plain', fun e inside => ?_, fun r => ?_⟩
  · obtain ⟨f, complement, -, powers⟩ := source e inside
    obtain ⟨g, member, rfl⟩ := given complement
    exact ⟨g, member, powers⟩
  · rw [value, weightedSum_dualEntry, Reading.read]

end Multivector

end Clifford
