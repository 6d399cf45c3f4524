import Clifford.Proofs.Multivector.Closed
import Clifford.Proofs.Outcome

/-! Renamings of indeterminates that keep their order: entries that correspond are collated into
multivectors that correspond, unless a sum overflows. -/

namespace Clifford

open Result (Concur)

/-- A correspondence of ids that keeps their order. -/
def KeepsOrder (rel : Nat → Nat → Prop) : Prop := ∀ ⦃i j k l⦄, rel i j → rel k l → (i < k ↔ j < l)

/-- Equality keeps the order. -/
theorem keepsOrder_eq : KeepsOrder Eq := by
  rintro i _ k _ rfl rfl
  rfl

/-- A power of the id that corresponds. -/
structure Power.Renamed (rel : Nat → Nat → Prop) (p q : Power) : Prop where
  id : rel p.id q.id
  degree : p.degree = q.degree

/-- A monomial over the ids that correspond. -/
structure Monomial.Renamed (rel : Nat → Nat → Prop) (m n : Monomial) : Prop where
  coefficient : m.coefficient = n.coefficient
  powers : List.Forall₂ (Power.Renamed rel) m.powers n.powers

/-- An entry on the same blade of a space, over the ids that correspond. -/
structure Entry.Renamed (dim : Nat) (rel : Nat → Nat → Prop) (e f : Entry) : Prop where
  element : e.element = f.element
  bounded : f.element < dim
  monomial : e.monomial.Renamed rel f.monomial

/-- A term on the same blade of a space, over the ids that correspond. -/
structure Term.Renamed (dim : Nat) (rel : Nat → Nat → Prop) (s t : Term) : Prop where
  element : s.element = t.element
  bounded : t.element < dim
  monomials : List.Forall₂ (Monomial.Renamed rel) s.monomials t.monomials

/-- A plain multivector on the same increasing blades of a space, over the ids that correspond. -/
structure Multivector.Renamed (dim : Nat) (rel : Nat → Nat → Prop) (a b : Multivector) : Prop where
  terms : List.Forall₂ (Term.Renamed dim rel) a.terms b.terms
  ordered : b.elements.Pairwise (· < ·)
  left : a.isPlain = true
  right : b.isPlain = true

/-- A key over the ids that correspond. -/
structure MonomialKey.Renamed (rel : Nat → Nat → Prop) (a b : MonomialKey) : Prop where
  degree : a.degree = b.degree
  powers : List.Forall₂ (Power.Renamed rel) a.powers b.powers

/-- A keyed entry on the same blade of a space, over the ids that correspond. -/
structure KeyedEntry.Renamed (dim : Nat) (rel : Nat → Nat → Prop) (a b : KeyedEntry) : Prop where
  element : a.element = b.element
  bounded : b.element < dim
  key : a.key.Renamed rel b.key
  coefficient : a.coefficient = b.coefficient

variable {dim : Nat} {rel : Nat → Nat → Prop}

/-- More ids correspond. -/
theorem Multivector.Renamed.mono {rel' : Nat → Nat → Prop} (more : ∀ i j, rel i j → rel' i j)
    {a b : Multivector} (renamed : a.Renamed dim rel b) : a.Renamed dim rel' b := by
  refine ⟨renamed.terms.imp fun s t term => ⟨term.element, term.bounded, ?_⟩, renamed.ordered,
    renamed.left, renamed.right⟩
  refine term.monomials.imp fun m n monomial => ⟨monomial.coefficient, ?_⟩
  exact monomial.powers.imp fun p q power => ⟨more _ _ power.id, power.degree⟩

section Order

variable (keeps : KeepsOrder rel)
include keeps

/-- Ids that correspond compare alike. -/
theorem KeepsOrder.compare_eq {i j k l : Nat} (first : rel i j) (second : rel k l) :
    Ord.compare i k = Ord.compare j l := by
  have less := keeps first second
  have greater := keeps second first
  simp only [Nat.compare_eq_ite_lt, less, greater]

/-- Powers compare alike under a renaming. -/
theorem Power.Renamed.compare_eq {p q r s : Power} (first : p.Renamed rel q)
    (second : r.Renamed rel s) : p.compare r = q.compare s := by
  rw [Power.compare, Power.compare, keeps.compare_eq first.id second.id, first.degree, second.degree]

/-- Power sequences compare alike under a renaming. -/
theorem comparePowers_renamed {ps qs : List Power}
    (first : List.Forall₂ (Power.Renamed rel) ps qs) : ∀ {rs ss},
      List.Forall₂ (Power.Renamed rel) rs ss → comparePowers ps rs = comparePowers qs ss := by
  -- The comparison looks at both sequences in parallel.
  induction first with
  | nil => rintro _ _ (_ | _) <;> rfl
  | cons head _ ih =>
    rintro _ _ (_ | ⟨other, rest⟩)
    · rfl
    · rw [comparePowers, comparePowers, head.compare_eq keeps other, ih rest]

/-- Keys compare alike under a renaming. -/
theorem MonomialKey.Renamed.compare_eq {a b c d : MonomialKey} (first : a.Renamed rel b)
    (second : c.Renamed rel d) : a.compare c = b.compare d := by
  rw [MonomialKey.compare, MonomialKey.compare, first.degree, second.degree,
    comparePowers_renamed keeps first.powers second.powers]

/-- Keyed entries compare alike under a renaming. -/
theorem KeyedEntry.Renamed.compare_eq {a b c d : KeyedEntry} (first : a.Renamed dim rel b)
    (second : c.Renamed dim rel d) : a.compare c = b.compare d := by
  rw [KeyedEntry.compare, KeyedEntry.compare, first.element, second.element,
    first.key.compare_eq keeps second.key]

/-- Keyed entries are alike where their new names are. -/
theorem KeyedEntry.Renamed.alike_eq {a b c d : KeyedEntry} (first : a.Renamed dim rel b)
    (second : c.Renamed dim rel d) : a.alike c = b.alike d := by
  rw [Bool.eq_iff_iff, ← compare_eq_eq, ← compare_eq_eq, first.compare_eq keeps second]

end Order

/-- Related lists have related entries at every position. -/
theorem forall₂_getElem? {α β : Type} {R : α → β → Prop} {xs : List α} {ys : List β}
    (pairs : List.Forall₂ R xs ys) : ∀ i : Nat, Option.Rel R xs[i]? ys[i]? := by
  induction pairs with
  | nil => exact fun _ => .none
  | cons first _ ih =>
    rintro (_ | i)
    · exact .some first
    · exact ih i

/-- Sorting related lists by orders that agree keeps them related. -/
theorem forall₂_mergeSort {α β : Type} {R : α → β → Prop} {le : α → α → Bool}
    {le' : β → β → Bool} (agree : ∀ a b c d, R a b → R c d → le a c = le' b d) {xs : List α}
    {ys : List β} (pairs : List.Forall₂ R xs ys) :
    List.Forall₂ R (xs.mergeSort le) (ys.mergeSort le') := by
  -- Both lists are read off one list of pairs, which is sorted by either order.
  obtain ⟨zs, rfl, rfl, related⟩ :
      ∃ zs : List (α × β), zs.map Prod.fst = xs ∧ zs.map Prod.snd = ys ∧ ∀ z ∈ zs, R z.1 z.2 := by
    obtain ⟨length, zipped⟩ := List.forall₂_iff_zip.mp pairs
    exact ⟨xs.zip ys, List.map_fst_zip length.le, List.map_snd_zip length.ge,
      fun z inside => zipped inside⟩
  rw [← List.map_mergeSort (r := fun p q => le p.1 q.1) (s := le) (f := Prod.fst) (fun _ _ _ _ => rfl),
    ← List.map_mergeSort (r := fun p q => le p.1 q.1) (s := le') (f := Prod.snd)
      (fun a first b second => agree _ _ _ _ (related a first) (related b second)),
    List.forall₂_map_left_iff, List.forall₂_map_right_iff, List.forall₂_same]
  exact fun z inside => related z (List.mem_mergeSort.mp inside)

/-- The gate fails by overflow alone. -/
theorem gate_concur (x : Rat) : Concur Eq (gate x) (gate x) :=
  .same (fun _ => gate_error) fun _ _ => rfl

/-- The total degree does not look at ids. -/
theorem totalDegree_renamed {ps qs : List Power}
    (renamed : List.Forall₂ (Power.Renamed rel) ps qs) : totalDegree ps = totalDegree qs := by
  rw [totalDegree, totalDegree]
  -- The degrees are added to any sum so far.
  generalize (0 : Rat) = total
  induction renamed generalizing total with
  | nil => rfl
  | cons first _ ih =>
    rw [List.foldlM_cons, List.foldlM_cons, first.degree]
    exact congrArg _ (funext ih)

/-- Keys of renamed powers are renamed. -/
theorem ofPowers_concur {ps qs : List Power}
    (renamed : List.Forall₂ (Power.Renamed rel) ps qs) :
    Concur (MonomialKey.Renamed rel) (MonomialKey.ofPowers ps) (MonomialKey.ofPowers qs) := by
  rw [MonomialKey.ofPowers, MonomialKey.ofPowers, totalDegree_renamed renamed]
  -- The degree is the same on both sides, or fails on both.
  refine (Concur.same (R := Eq) (fun _ => totalDegree_error) fun _ _ => rfl).bind ?_
  rintro degree _ rfl
  exact .ok ⟨rfl, renamed⟩

namespace KeyedEntry

/-- Runs of renamed entries are added up alike. -/
theorem sumRuns_concur (keeps : KeepsOrder rel) {xs ys : List KeyedEntry}
    (renamed : List.Forall₂ (Renamed dim rel) xs ys) : ∀ {a b}, Renamed dim rel a b →
      Concur (List.Forall₂ (Renamed dim rel)) (sumRuns a xs) (sumRuns b ys) := by
  induction renamed with
  | nil => exact fun current => .ok (.cons current .nil)
  | cons first _ ih =>
    intro a b current
    -- Entries are alike on both sides or on neither, so both runs end together.
    rw [sumRuns, sumRuns, current.alike_eq keeps first, current.coefficient, first.coefficient]
    split
    · refine (gate_concur _).bind ?_
      rintro total _ rfl
      exact ih ⟨current.element, current.bounded, current.key, rfl⟩
    · exact (ih first).bind fun _ _ rest => .ok (.cons current rest)

/-- Sorted entries that are renamed merge alike. -/
theorem merge_concur (keeps : KeepsOrder rel) {xs ys : List KeyedEntry}
    (renamed : List.Forall₂ (Renamed dim rel) xs ys) :
    Concur (List.Forall₂ (Renamed dim rel)) (merge xs) (merge ys) := by
  obtain _ | ⟨first, rest⟩ := renamed
  · exact .ok .nil
  · refine (sumRuns_concur keeps rest first).bind fun _ _ runs => .ok (List.rel_filter ?_ runs)
    -- A coefficient of zero is dropped on both sides.
    exact fun e f given => by simp [given.coefficient]

/-- Renamed entries are gathered into renamed terms. -/
theorem group_renamed {xs ys : List KeyedEntry} (renamed : List.Forall₂ (Renamed dim rel) xs ys) :
    List.Forall₂ (Term.Renamed dim rel) (group xs) (group ys) := by
  induction renamed with
  | nil => exact .nil
  | @cons e f _ _ first rest ih =>
    have monomial : e.monomial.Renamed rel f.monomial := ⟨first.coefficient, first.key.powers⟩
    have single : Term.Renamed dim rel ⟨e.element, [e.monomial]⟩ ⟨f.element, [f.monomial]⟩ :=
      ⟨first.element, first.bounded, .cons monomial .nil⟩
    rw [group, group]
    generalize group _ = ts at ih ⊢
    generalize group _ = us at ih ⊢
    -- The first term behind the entry is on the same blade in both lists.
    cases ih with
    | nil => exact .cons single .nil
    | @cons t u _ _ next others =>
      dsimp only
      have same : t.element = e.element ↔ u.element = f.element := by
        rw [next.element, first.element]
      by_cases joined : u.element = f.element
      · rw [if_pos (same.mpr joined), if_pos joined]
        exact .cons ⟨next.element, next.bounded, .cons monomial next.monomials⟩ others
      · rw [if_neg (mt same.mp joined), if_neg joined]
        exact .cons single (.cons next others)

end KeyedEntry

/-- Renamed entries are collated into renamed terms. -/
theorem collateTerms_concur (keeps : KeepsOrder rel) {es fs : List Entry}
    (renamed : List.Forall₂ (Entry.Renamed dim rel) es fs) :
    Concur (List.Forall₂ (Term.Renamed dim rel)) (collateTerms es) (collateTerms fs) := by
  refine (Concur.mapM (S := KeyedEntry.Renamed dim rel) renamed fun e f given => ?_).bind
    fun _ _ keyed => ?_
  · exact (ofPowers_concur given.monomial.powers).bind fun _ _ key =>
      .ok ⟨given.element, given.bounded, key, given.monomial.coefficient⟩
  · -- Both are sorted alike, since keys compare alike.
    have sorted := forall₂_mergeSort (R := KeyedEntry.Renamed dim rel)
      (fun a b c d first second => congrArg Ordering.isLE (first.compare_eq keeps second)) keyed
    exact (KeyedEntry.merge_concur keeps sorted).bind fun _ _ merged =>
      .ok (KeyedEntry.group_renamed merged)

/-- Renamed entries are collated into renamed multivectors, whatever the multipliers of a function that
is not deferred. -/
theorem collate_concur (keeps : KeepsOrder rel) {es fs : List Entry}
    (renamed : List.Forall₂ (Entry.Renamed dim rel) es fs) (p q : Rat) :
    Concur (Multivector.Renamed dim rel) (collate es .identity p) (collate fs .identity q) := by
  have terms : Concur (fun a b => List.Forall₂ (Term.Renamed dim rel) a.terms b.terms ∧
      a.isPlain = true ∧ b.isPlain = true) (collate es .identity p) (collate fs .identity q) :=
    (collateTerms_concur keeps renamed).bind fun _ _ same => .ok ⟨same, rfl, rfl⟩
  -- The blades of what is returned increase, whatever was collated.
  exact terms.given.imp fun _ _ made =>
    ⟨made.1.1, collate_ordered made.2.2, made.1.2.1, made.1.2.2⟩

end Clifford
