import Mathlib
import Clifford.Multivector.Collate

/-! The canonical order: comparisons of powers, of monomials and of entries are total orders. -/

namespace Clifford

open Std

/-- A total order on images orders what they are images of. -/
theorem transCmp_on {α β : Type} (cmp : β → β → Ordering) [TransCmp cmp] (f : α → β) :
    TransCmp fun a b => cmp (f a) (f b) where
  eq_swap := OrientedCmp.eq_swap
  isLE_trans := TransCmp.isLE_trans

/-- Sorting by a total order leaves a list that increases weakly. -/
theorem pairwise_mergeSort_isLE {α : Type} (cmp : α → α → Ordering) [TransCmp cmp] (xs : List α) :
    (xs.mergeSort fun a b => (cmp a b).isLE).Pairwise fun a b => (cmp a b).isLE := by
  refine List.pairwise_mergeSort (fun a b c => TransCmp.isLE_trans) (fun a b => ?_) xs
  -- Of any two elements one is not larger.
  have swap : cmp b a = (cmp a b).swap := OrientedCmp.eq_swap
  rw [swap]
  cases cmp a b <;> rfl

/-- Rational numbers are compared in their order. -/
theorem compareRat_eq : compareRat = (compare : Rat → Rat → Ordering) := by
  funext x y
  rw [LinearOrder.compare_eq_compareOfLessAndEq]
  rfl

instance : TransCmp compareRat := by
  rw [compareRat_eq]
  infer_instance

instance : LawfulEqCmp compareRat := by
  rw [compareRat_eq]
  infer_instance

namespace Power

/-- Powers are compared by two comparisons in turn. -/
theorem compare_eq : Power.compare =
    compareLex (fun a b => Ord.compare a.id b.id) (fun a b => compareRat a.degree b.degree) := rfl

instance : TransCmp Power.compare := by
  have := transCmp_on (Ord.compare : Nat → Nat → Ordering) Power.id
  have := transCmp_on compareRat Power.degree
  rw [compare_eq]
  infer_instance

instance : LawfulEqCmp Power.compare where
  compare_self := ReflCmp.compare_self
  -- Both comparisons are equal, so both fields are.
  eq_of_compare {a b} equal := by
    rw [compare_eq, compareLex_eq_eq] at equal
    have ids : a.id = b.id := LawfulEqCmp.eq_of_compare equal.1
    have degrees : a.degree = b.degree := LawfulEqCmp.eq_of_compare equal.2
    cases a
    cases b
    simp_all

end Power

/-- Power sequences are compared entry by entry. -/
theorem comparePowers_eq : comparePowers = List.compareLex Power.compare := by
  -- The recursion is that of the lexicographic comparison.
  funext as bs
  induction as generalizing bs with
  | nil => cases bs <;> rfl
  | cons a as ih =>
    cases bs with
    | nil => rfl
    | cons b bs => rw [comparePowers, ih, List.compareLex_cons_cons]

instance : TransCmp comparePowers := by
  rw [comparePowers_eq]
  infer_instance

instance : LawfulEqCmp comparePowers := by
  rw [comparePowers_eq]
  infer_instance

namespace MonomialKey

/-- Keys are compared by degree and then by powers. -/
theorem compare_eq : MonomialKey.compare =
    compareLex (fun a b => compareRat a.degree b.degree)
      (fun a b => comparePowers a.powers b.powers) := rfl

instance : TransCmp MonomialKey.compare := by
  have := transCmp_on compareRat MonomialKey.degree
  have := transCmp_on comparePowers MonomialKey.powers
  rw [compare_eq]
  infer_instance

instance : LawfulEqCmp MonomialKey.compare where
  compare_self := ReflCmp.compare_self
  eq_of_compare {a b} equal := by
    rw [compare_eq, compareLex_eq_eq] at equal
    have degrees : a.degree = b.degree := LawfulEqCmp.eq_of_compare equal.1
    have powers : a.powers = b.powers := LawfulEqCmp.eq_of_compare equal.2
    cases a
    cases b
    simp_all

end MonomialKey

namespace KeyedEntry

/-- Entries are compared by blade and then by key. -/
theorem compare_eq : KeyedEntry.compare =
    compareLex (fun a b => Ord.compare a.element b.element)
      (fun a b => MonomialKey.compare a.key b.key) := rfl

instance : TransCmp KeyedEntry.compare := by
  have := transCmp_on (Ord.compare : Nat → Nat → Ordering) KeyedEntry.element
  have := transCmp_on MonomialKey.compare KeyedEntry.key
  rw [compare_eq]
  infer_instance

/-- Entries that compare equal are alike. -/
theorem compare_eq_eq (a b : KeyedEntry) : compare a b = .eq ↔ alike a b := by
  rw [compare_eq, compareLex_eq_eq, alike, LawfulEqCmp.compare_eq_iff_eq,
    LawfulEqCmp.compare_eq_iff_eq]
  simp

/-- An entry comes before another one on a higher blade, or on its blade with a higher key. -/
theorem compare_eq_lt (a b : KeyedEntry) :
    compare a b = .lt ↔
      a.element < b.element ∨ a.element = b.element ∧ MonomialKey.compare a.key b.key = .lt := by
  rw [compare, Ordering.then_eq_lt, Nat.compare_eq_lt, Nat.compare_eq_eq]

/-- The sorted entries increase weakly. -/
theorem pairwise_sorted (keyed : List KeyedEntry) :
    (keyed.mergeSort fun a b => (compare a b).isLE).Pairwise fun a b => (compare a b).isLE :=
  pairwise_mergeSort_isLE compare keyed

end KeyedEntry

end Clifford
