import Clifford.Proofs.Multivector.LinearMerge
import Clifford.Proofs.Multivector.Scalar

/-! Multivectors with a fresh indeterminate on each of some blades, which denote any coefficients on
these blades. -/

namespace Clifford

open Finsupp

/-- Collation keeps the terms of a canonical multivector. -/
theorem collate_entries {a : Multivector} (canonical : a.Canonical) :
    collate a.entries = .ok { terms := a.terms } := by
  rw [collate, canonical.collateTerms_of_perm (.refl _)]
  rfl

namespace Multivector

/-- Terms of one indeterminate each, with consecutive ids. -/
def fresh (id : Nat) (elements : List Nat) : Multivector :=
  { terms := elements.mapIdx fun k element => ⟨element, [⟨1, [Power.linear (id + k)]⟩]⟩ }

variable {id : Nat} {elements : List Nat}

/-- The first blade has the first indeterminate. -/
theorem fresh_cons (element : Nat) (rest : List Nat) :
    (fresh id (element :: rest)).terms =
      ⟨element, [⟨1, [Power.linear id]⟩]⟩ :: (fresh (id + 1) rest).terms := by
  simp [fresh, List.mapIdx_cons, Nat.add_assoc, Nat.add_comm 1]

@[simp] theorem elements_fresh : (fresh id elements).elements = elements := by
  induction elements generalizing id with
  | nil => rfl
  | cons element rest ih =>
    -- The rest starts with the next id, so the hypothesis is taken there.
    have others := @ih (id + 1)
    rw [Multivector.elements] at others ⊢
    rw [fresh_cons, List.map_cons, others]

/-- The entries of a multivector of fresh indeterminates. -/
theorem entries_fresh : (fresh id elements).entries =
    elements.mapIdx fun k element => Entry.of element 1 [Power.linear (id + k)] := by
  induction elements generalizing id with
  | nil => rfl
  | cons element rest ih =>
    have others := @ih (id + 1)
    rw [entries] at others ⊢
    rw [fresh_cons, List.flatMap_cons, others]
    simp [List.mapIdx_cons, Term.entries, Entry.of, Nat.add_assoc, Nat.add_comm 1]

/-- Fresh indeterminates on increasing blades are in canonical form. -/
theorem canonical_fresh (increasing : elements.Pairwise (· < ·)) :
    (fresh id elements).Canonical := by
  refine ⟨fun t member => ?_, by simpa using increasing⟩
  -- Every term is a single monomial of degree one.
  obtain ⟨k, inside, rfl⟩ := List.mem_mapIdx.mp member
  have degree : Dyadic 0 (Power.linear (id + k)).degree := Dyadic.one 0
  refine ⟨by simp, fun m given => ?_, List.pairwise_singleton _ _⟩
  obtain rfl := List.mem_singleton.mp given
  exact ⟨one_ne_zero, List.pairwise_singleton _ _, exists_key (by simpa using degree)⟩

/-- Fresh indeterminates have unit coefficients. -/
theorem hasUnits_fresh : (fresh id elements).HasUnits := by
  intro e inside
  rw [entries_fresh] at inside
  obtain ⟨k, -, rfl⟩ := List.mem_mapIdx.mp inside
  exact .inl rfl

/-- Blades in order receive their indeterminates in order. -/
theorem ofElements_eq_fresh (increasing : elements.Pairwise (· < ·)) :
    ofElements id elements = .ok (fresh id elements) := by
  rw [ofElements, ← entries_fresh]
  exact collate_entries (canonical_fresh increasing)

variable {dim : Nat} {F : Functions dim} {ρ : Nat → Rat} {bound : Nat} {x : Dense}

/-- Fresh indeterminates denote the coefficients that are assigned to them. -/
theorem Denotes.fresh (increasing : elements.Pairwise (· < ·)) (inside : ∀ e ∈ elements, e < dim)
    (covered : id + elements.length ≤ bound) (reached : ∀ b, x b ≠ 0 → b ∈ elements)
    (assigned : ∀ k (small : k < elements.length), ρ (id + k) = x elements[k]) :
    (fresh id elements).Denotes F ρ bound x := by
  have canonical := @canonical_fresh id _ increasing
  -- Its conditions are read off the entries, which are known one by one.
  refine of_read (.of_entries canonical (fun e member => ?_) fun e member => ?_) ⟨rfl, rfl⟩
    (fun e member p power => ?_) ?_
  · rw [entries_fresh] at member
    obtain ⟨k, small, rfl⟩ := List.mem_mapIdx.mp member
    exact inside _ (List.getElem_mem small)
  · rcases hasUnits_fresh e member with one | minus
    · exact one ▸ Dyadic.one 0
    · exact minus ▸ (Dyadic.one 0).neg
  · rw [entries_fresh] at member
    obtain ⟨k, small, rfl⟩ := List.mem_mapIdx.mp member
    obtain rfl := List.mem_singleton.mp power
    exact ⟨by show id + k < bound; omega, Dyadic.one 0, .inl (by show (0 : Rat) ≤ 1; norm_num)⟩
  · funext blade
    by_cases present : blade ∈ elements
    · -- The value on a blade is that of its indeterminate.
      obtain ⟨k, small, rfl⟩ := List.getElem_of_mem present
      have member : (⟨elements[k], [⟨1, [Power.linear (id + k)]⟩]⟩ : Term) ∈
          (Multivector.fresh id elements).terms := List.mem_mapIdx.mpr ⟨k, small, rfl⟩
      rw [(Reading.assigned ρ).read_of_term canonical.ordered member, ← assigned k small]
      simp [Reading.sum, Reading.assigned, Power.valueAt, Power.linear]
    · rw [Reading.read_of_absent _ (by simpa using present)]
      exact (not_ne_iff.mp (mt (reached blade) present)).symm

end Multivector

end Clifford
