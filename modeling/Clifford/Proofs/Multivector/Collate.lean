import Clifford.Proofs.Multivector.Canonical
import Clifford.Proofs.Rational.Exact

/-! Collation: sorting and merging entries gives a canonical multivector with the same total, for
every weight that the blades and powers of entries may carry. -/

namespace Clifford

open Std

section Total

variable {M : Type} [AddCommGroup M] [Module Rat M]

/-- The sum of the weights of entries, each multiplied by its coefficient. -/
def weightedSum (weight : Nat → List Power → M) (entries : List Entry) : M :=
  (entries.map fun e => e.monomial.coefficient • weight e.element e.monomial.powers).sum

variable (weight : Nat → List Power → M)

@[simp] theorem weightedSum_nil : weightedSum weight [] = 0 := rfl

@[simp] theorem weightedSum_cons (e : Entry) (rest : List Entry) :
    weightedSum weight (e :: rest) =
      e.monomial.coefficient • weight e.element e.monomial.powers + weightedSum weight rest := by
  simp [weightedSum]

@[simp] theorem weightedSum_append (left right : List Entry) :
    weightedSum weight (left ++ right) = weightedSum weight left + weightedSum weight right := by
  simp [weightedSum]

/-- The total of a list of lists is the sum of their totals. -/
theorem weightedSum_flatten (rows : List (List Entry)) :
    weightedSum weight rows.flatten = (rows.map (weightedSum weight)).sum := by
  induction rows with
  | nil => rfl
  | cons row rows ih => simp [ih]

/-- Entries in another order have the same total. -/
theorem weightedSum_perm {left right : List Entry} (perm : left.Perm right) :
    weightedSum weight left = weightedSum weight right := (perm.map _).sum_eq

end Total

/-- Every coefficient of some entries has a small power of two as its denominator. -/
def DyadicEntries (k : Nat) (entries : List Entry) : Prop :=
  ∀ e ∈ entries, Dyadic k e.monomial.coefficient

/-- An entry stands before another one in the canonical order. -/
def Entry.Before (e f : Entry) : Prop :=
  e.element < f.element ∨ e.element = f.element ∧ e.monomial.Before f.monomial

namespace KeyedEntry

/-- An entry without the degree that it is sorted by. -/
def toEntry (e : KeyedEntry) : Entry := ⟨e.element, e.monomial⟩

/-- The degree in a key is the degree of its powers. -/
def Lawful (e : KeyedEntry) : Prop := MonomialKey.ofPowers e.key.powers = .ok e.key

/-- A key forgets nothing about an entry. -/
theorem toEntry_of_ofEntry {e : Entry} {keyed : KeyedEntry} (made : ofEntry e = .ok keyed) :
    keyed.toEntry = e ∧ keyed.Lawful := by
  -- The key holds the powers, so blade, coefficient and powers come back.
  obtain ⟨key, keyOf, rest⟩ := Result.bind_eq_ok.mp made
  cases rest
  obtain ⟨degree, sum, rest⟩ := Result.bind_eq_ok.mp keyOf
  cases rest
  exact ⟨rfl, keyOf⟩

/-- Adding up runs leaves the blades and keys of what it adds up. -/
theorem sumRuns_mem (rest : List KeyedEntry) : ∀ {current : KeyedEntry} {out : List KeyedEntry},
    sumRuns current rest = .ok out →
    ∀ x ∈ out, ∃ y ∈ current :: rest, y.element = x.element ∧ y.key = x.key := by
  induction rest with
  | nil =>
    intro current out summed x inside
    cases summed
    exact ⟨x, inside, rfl, rfl⟩
  | cons e rest ih =>
    intro current out summed x inside
    rw [sumRuns] at summed
    split at summed
    · obtain ⟨q, -, later⟩ := Result.bind_eq_ok.mp summed
      -- A run only changes its coefficient, so blade and key are still those of its first entry.
      obtain ⟨y, member, same⟩ := ih later x inside
      rcases List.mem_cons.mp member with rfl | old
      · exact ⟨current, by simp, same⟩
      · exact ⟨y, by simp [old], same⟩
    · obtain ⟨others, later, done⟩ := Result.bind_eq_ok.mp summed
      cases done
      rcases List.mem_cons.mp inside with rfl | old
      · exact ⟨x, by simp, rfl, rfl⟩
      · obtain ⟨y, member, same⟩ := ih later x old
        exact ⟨y, List.mem_cons_of_mem _ member, same⟩

/-- Adding up the runs of sorted entries leaves every key once, in order. -/
theorem sumRuns_ordered (rest : List KeyedEntry) :
    ∀ {current : KeyedEntry} {out : List KeyedEntry},
    (current :: rest).Pairwise (fun a b => (compare a b).isLE) → sumRuns current rest = .ok out →
    out.Pairwise (fun a b => compare a b = .lt) ∧
      ∃ first later, out = first :: later ∧ first.element = current.element ∧
        first.key = current.key := by
  induction rest with
  | nil =>
    intro current out _ summed
    cases summed
    exact ⟨List.pairwise_singleton _ _, current, [], rfl, rfl, rfl⟩
  | cons e rest ih =>
    intro current out sorted summed
    obtain ⟨least, sortedRest⟩ := List.pairwise_cons.mp sorted
    rw [sumRuns] at summed
    split at summed
    · -- The coefficient of the run plays no part in the order.
      obtain ⟨q, -, later⟩ := Result.bind_eq_ok.mp summed
      refine @ih { current with coefficient := q } out
        (List.pairwise_cons.mpr ⟨fun x inside => ?_, sortedRest.of_cons⟩) later
      exact least x (List.mem_cons_of_mem _ inside)
    · -- The next run starts with a larger entry.
      rename_i differ
      obtain ⟨others, later, done⟩ := Result.bind_eq_ok.mp summed
      cases done
      obtain ⟨ordered, first, more, rfl, element, key⟩ := ih sortedRest later
      refine ⟨List.pairwise_cons.mpr ⟨fun x inside => ?_, ordered⟩, current, _, rfl, rfl, rfl⟩
      have below : compare current first = .lt := by
        have le := least e (by simp)
        have ne : compare current e ≠ .eq := by rwa [ne_eq, compare_eq_eq]
        have same : compare current first = compare current e := by
          rw [compare, compare, element, key]
        rw [same]
        cases order : compare current e <;> simp_all
      rcases List.mem_cons.mp inside with rfl | old
      · exact below
      · exact TransCmp.lt_trans below ((List.pairwise_cons.mp ordered).1 x old)

/-- Adding up runs keeps the total of coefficients that add exactly. -/
theorem sumRuns_total {M : Type} [AddCommGroup M] [Module Rat M] (weight : Nat → List Power → M)
    {k : Nat} (small : k ≤ exactBits) (rest : List KeyedEntry) :
    ∀ {current : KeyedEntry}, (∀ e ∈ current :: rest, Dyadic k e.coefficient) →
    ∃ out, sumRuns current rest = .ok out ∧ (∀ e ∈ out, Dyadic k e.coefficient) ∧
      weightedSum weight (out.map toEntry) = weightedSum weight ((current :: rest).map toEntry) := by
  -- The current entry takes up those that follow with the same key, and is emitted at the next one.
  induction rest with
  | nil => exact fun dyadic => ⟨_, rfl, dyadic, rfl⟩
  | cons e rest ih =>
    intro current dyadic
    have first := dyadic current (by simp)
    have second := dyadic e (by simp)
    have later : ∀ x ∈ rest, Dyadic k x.coefficient := fun x inside =>
      dyadic x (by simp [inside])
    rw [sumRuns]
    split
    · -- Equal keys add their coefficients, and the total of the sum is the sum of the totals.
      rename_i same
      obtain ⟨element, key⟩ : current.element = e.element ∧ current.key = e.key := by
        simpa [alike] using same
      rw [gatedAdd_eq_ok first second small, Result.ok_bind]
      obtain ⟨out, summed, bound, sum⟩ :=
        @ih { current with coefficient := current.coefficient + e.coefficient } fun x inside => by
          rcases List.mem_cons.mp inside with rfl | old
          · exact first.add second
          · exact later x old
      refine ⟨out, summed, bound, sum.trans ?_⟩
      simp [toEntry, monomial, add_smul, element, key, add_assoc]
    · obtain ⟨out, summed, bound, sum⟩ := @ih e fun x inside =>
        dyadic x (List.mem_cons_of_mem _ inside)
      refine ⟨current :: out, by rw [summed]; rfl, fun x inside => ?_, ?_⟩
      · rcases List.mem_cons.mp inside with rfl | old
        · exact first
        · exact bound x old
      · simp only [List.map_cons, weightedSum_cons] at sum ⊢
        rw [sum]

/-- Gathering neighbours into terms keeps every entry in its place. -/
theorem entries_group (keyed : List KeyedEntry) :
    (group keyed).flatMap Term.entries = keyed.map toEntry := by
  -- An entry joins the first term if that is on its blade, and starts a term otherwise.
  induction keyed with
  | nil => rfl
  | cons e rest ih =>
    rw [group]
    split
    · rename_i t ts grouped
      rw [grouped] at ih
      split
      · rename_i same
        rw [List.map_cons, ← ih]
        simp [Term.entries, toEntry, same]
      · rw [List.map_cons, ← ih]
        simp [Term.entries, toEntry]
    · rename_i grouped
      rw [grouped] at ih
      rw [List.map_cons, ← ih]
      simp [Term.entries, toEntry]

/-- Gathered terms hold at least one monomial, and neighbours differ in their blades. -/
theorem group_nonempty (keyed : List KeyedEntry) : ∀ t ∈ group keyed, t.monomials ≠ [] := by
  induction keyed with
  | nil => simp [group]
  | cons e rest ih =>
    intro t inside
    rw [group] at inside
    split at inside
    · rename_i u us grouped
      rw [grouped] at ih
      split at inside
      · rcases List.mem_cons.mp inside with rfl | later
        · simp
        · exact ih t (List.mem_cons_of_mem _ later)
      · rcases List.mem_cons.mp inside with rfl | later
        · simp
        · exact ih t later
    · simp_all

/-- The first gathered term lies on the blade of the first entry. -/
theorem group_head (e : KeyedEntry) (rest : List KeyedEntry) :
    ∃ t ts, group (e :: rest) = t :: ts ∧ t.element = e.element := by
  rw [group]
  split
  · split
    · rename_i same
      exact ⟨_, _, rfl, same⟩
    · exact ⟨_, _, rfl, rfl⟩
  · exact ⟨_, _, rfl, rfl⟩

/-- The blades of gathered terms increase when those of the entries do weakly. -/
theorem group_ordered (keyed : List KeyedEntry) :
    (keyed.map (·.element)).Pairwise (· ≤ ·) →
      ((group keyed).map (·.element)).Pairwise (· < ·) := by
  induction keyed with
  | nil => simp [group]
  | cons e rest ih =>
    intro sorted
    obtain ⟨least, sortedRest⟩ := List.pairwise_cons.mp sorted
    -- The rest is gathered on increasing blades, and the entry joins or precedes it.
    have ordered := ih sortedRest
    rw [group]
    split
    · rename_i t ts grouped
      rw [grouped] at ordered
      split
      · exact ordered
      · rename_i differ
        refine List.pairwise_cons.mpr ⟨fun element inside => ?_, ordered⟩
        -- The first term after the entry lies on the blade of the next entry.
        have above : e.element < t.element := by
          cases rest with
          | nil => simp [group] at grouped
          | cons f rest =>
            obtain ⟨u, us, split, head⟩ := group_head f rest
            obtain ⟨rfl, rfl⟩ : u = t ∧ us = ts := by simpa [split] using grouped
            have le : e.element ≤ f.element := least f.element (by simp)
            omega
        rcases List.mem_cons.mp inside with rfl | later
        · exact above
        · exact above.trans ((List.pairwise_cons.mp ordered).1 element later)
    · exact List.pairwise_singleton _ _

end KeyedEntry

/-- The entries of a canonical multivector are in order. -/
theorem Multivector.Canonical.entries_ordered {a : Multivector} (canonical : a.Canonical) :
    a.entries.Pairwise Entry.Before := by
  rw [Multivector.entries, List.pairwise_flatMap]
  -- Within a term monomials are in order, and between terms blades are.
  constructor
  · intro t inside
    rw [Term.entries, List.pairwise_map]
    exact (canonical.terms t inside).ordered.imp fun before => .inr ⟨rfl, before⟩
  · have ordered := List.pairwise_map.mp canonical.ordered
    refine ordered.imp fun {t u} less x left y right => ?_
    obtain ⟨m, -, rfl⟩ := List.mem_map.mp left
    obtain ⟨n, -, rfl⟩ := List.mem_map.mp right
    exact .inl less

/-- Canonical entries in order form a canonical multivector, however they are gathered. -/
theorem canonical_of_entries {a : Multivector} (nonempty : ∀ t ∈ a.terms, t.monomials ≠ [])
    (elements : a.elements.Pairwise (· < ·)) (monomials : ∀ e ∈ a.entries, e.monomial.Canonical)
    (ordered : a.entries.Pairwise Entry.Before) : a.Canonical := by
  refine ⟨fun t inside => ⟨nonempty t inside, fun m member => ?_, ?_⟩, elements⟩
  · exact monomials ⟨t.element, m⟩ (List.mem_flatMap.mpr ⟨t, inside, List.mem_map_of_mem member⟩)
  · have each := (List.pairwise_flatMap.mp ordered).1 t inside
    rw [Term.entries, List.pairwise_map] at each
    refine each.imp fun {m n} before => ?_
    rcases before with less | ⟨-, before⟩
    · exact absurd less (lt_irrefl _)
    · exact before

section Collate

variable {entries : List Entry} {ts : List Term}

/-- Collation takes entries apart into a sorted, a merged and a gathered list. -/
theorem collateTerms_eq_ok (collated : collateTerms entries = .ok ts) :
    ∃ keyed merged, List.Forall₂ (fun e x => KeyedEntry.ofEntry e = .ok x) entries keyed ∧
      KeyedEntry.merge (keyed.mergeSort fun a b => (KeyedEntry.compare a b).isLE) = .ok merged ∧
      ts = KeyedEntry.group merged := by
  obtain ⟨keyed, mapped, rest⟩ := Result.bind_eq_ok.mp collated
  obtain ⟨merged, summed, done⟩ := Result.bind_eq_ok.mp rest
  cases done
  exact ⟨keyed, merged, Result.mapM_eq_ok.mp mapped, summed, rfl⟩

/-- Entries in order are merged as they are. -/
theorem collateTerms_of_sorted {keyed : List KeyedEntry}
    (made : entries.mapM KeyedEntry.ofEntry = .ok keyed)
    (sorted : keyed.Pairwise fun a b => (KeyedEntry.compare a b).isLE) :
    collateTerms entries = (do return KeyedEntry.group (← KeyedEntry.merge keyed)) := by
  rw [collateTerms, made, Result.ok_bind]
  dsimp only
  rw [List.mergeSort_of_pairwise sorted]

/-- Merged entries are in order, have nonzero coefficients, and come from the sorted ones. -/
theorem merge_spec {sorted merged : List KeyedEntry}
    (ordered : sorted.Pairwise fun a b => (KeyedEntry.compare a b).isLE)
    (summed : KeyedEntry.merge sorted = .ok merged) :
    merged.Pairwise (fun a b => KeyedEntry.compare a b = .lt) ∧
      (∀ x ∈ merged, x.coefficient ≠ 0) ∧
      ∀ x ∈ merged, ∃ y ∈ sorted, y.element = x.element ∧ y.key = x.key := by
  cases sorted with
  | nil =>
    cases summed
    simp
  | cons e rest =>
    -- The runs are summed up, and those that vanish are dropped.
    obtain ⟨out, runs, done⟩ := Result.bind_eq_ok.mp summed
    cases done
    refine ⟨(KeyedEntry.sumRuns_ordered rest ordered runs).1.filter _, fun x inside => ?_,
      fun x inside => ?_⟩
    · simpa using (List.mem_filter.mp inside).2
    · exact KeyedEntry.sumRuns_mem rest runs x (List.mem_filter.mp inside).1

/-- Every collated entry lies on the blade and has the powers of one of the given entries. -/
theorem collateTerms_mem (collated : collateTerms entries = .ok ts) :
    ∀ e ∈ ts.flatMap Term.entries, ∃ f ∈ entries,
      f.element = e.element ∧ f.monomial.powers = e.monomial.powers := by
  obtain ⟨keyed, merged, made, summed, rfl⟩ := collateTerms_eq_ok collated
  have source := (merge_spec (KeyedEntry.pairwise_sorted keyed) summed).2.2
  intro e inside
  -- Collation only adds coefficients, so an entry can be followed back through all three steps.
  rw [KeyedEntry.entries_group] at inside
  obtain ⟨x, member, rfl⟩ := List.mem_map.mp inside
  obtain ⟨y, old, element, key⟩ := source x member
  obtain ⟨f, given, keyOf⟩ :=
    Result.exists_of_mem_mapM (Result.mapM_eq_ok.mpr made) (List.mem_mergeSort.mp old)
  obtain ⟨same, -⟩ := KeyedEntry.toEntry_of_ofEntry keyOf
  exact ⟨f, given, by rw [← same]; exact element, by rw [← same]; exact congrArg (·.powers) key⟩

/-- Collated terms lie on increasing blades. -/
theorem collate_ordered {op : Deferred} {opScale : Rat} {a : Multivector}
    (collated : collate entries op opScale = .ok a) : a.elements.Pairwise (· < ·) := by
  obtain ⟨ts, terms, done⟩ := Result.bind_eq_ok.mp collated
  cases done
  obtain ⟨keyed, merged, made, summed, rfl⟩ := collateTerms_eq_ok terms
  obtain ⟨ordered, -, -⟩ := merge_spec (KeyedEntry.pairwise_sorted keyed) summed
  -- Merged entries increase strictly, so their blades do not decrease.
  refine KeyedEntry.group_ordered merged (List.pairwise_map.mpr (ordered.imp fun less => ?_))
  rcases (KeyedEntry.compare_eq_lt _ _).mp less with below | ⟨same, -⟩
  · exact below.le
  · exact same.le

/-- Collated terms are canonical when the ids of every given entry increase. -/
theorem collate_canonical {op : Deferred} {opScale : Rat} {a : Multivector}
    (increasing : ∀ e ∈ entries, Increasing e.monomial.powers)
    (collated : collate entries op opScale = .ok a) : a.Canonical := by
  obtain ⟨ts, terms, done⟩ := Result.bind_eq_ok.mp collated
  cases done
  have sources := collateTerms_mem terms
  obtain ⟨keyed, merged, made, summed, rfl⟩ := collateTerms_eq_ok terms
  obtain ⟨ordered, nonzero, source⟩ := merge_spec (KeyedEntry.pairwise_sorted keyed) summed
  -- The key of a merged entry is the key of its own powers.
  have lawful : ∀ x ∈ merged, x.Lawful := by
    intro x member
    obtain ⟨y, old, -, key⟩ := source x member
    obtain ⟨f, -, keyOf⟩ :=
      Result.exists_of_mem_mapM (Result.mapM_eq_ok.mpr made) (List.mem_mergeSort.mp old)
    have := (KeyedEntry.toEntry_of_ofEntry keyOf).2
    rwa [KeyedEntry.Lawful, key] at this
  refine canonical_of_entries (KeyedEntry.group_nonempty merged) (collate_ordered collated) ?_ ?_
  · intro e inside
    obtain ⟨f, given, -, powers⟩ := sources e inside
    rw [Multivector.entries, KeyedEntry.entries_group] at inside
    obtain ⟨x, member, rfl⟩ := List.mem_map.mp inside
    exact ⟨nonzero x member, powers ▸ increasing f given, x.key, lawful x member⟩
  · -- The order of keyed entries is that of the monomials which they hold.
    rw [Multivector.entries, KeyedEntry.entries_group, List.pairwise_map]
    refine ordered.imp_of_mem fun {x y} left right less => ?_
    rcases (KeyedEntry.compare_eq_lt x y).mp less with below | ⟨same, keys⟩
    · exact .inl below
    · exact .inr ⟨same, x.key, y.key, lawful x left, lawful y right, keys⟩

/-- Entries without a coefficient do not add to a total. -/
theorem weightedSum_filter {M : Type} [AddCommGroup M] [Module Rat M] (weight : Nat → List Power → M)
    (keyed : List KeyedEntry) :
    weightedSum weight ((keyed.filter fun e => e.coefficient ≠ 0).map KeyedEntry.toEntry) =
      weightedSum weight (keyed.map KeyedEntry.toEntry) := by
  induction keyed with
  | nil => rfl
  | cons e rest ih =>
    by_cases zero : e.coefficient = 0
    · simpa [zero, KeyedEntry.toEntry, KeyedEntry.monomial] using ih
    · simpa [zero] using ih

/-- Merging keeps the total of coefficients that add exactly. -/
theorem merge_total {M : Type} [AddCommGroup M] [Module Rat M] (weight : Nat → List Power → M)
    {k : Nat} (small : k ≤ exactBits) (sorted : List KeyedEntry)
    (dyadic : ∀ e ∈ sorted, Dyadic k e.coefficient) :
    ∃ merged, KeyedEntry.merge sorted = .ok merged ∧ (∀ e ∈ merged, Dyadic k e.coefficient) ∧
      weightedSum weight (merged.map KeyedEntry.toEntry) =
        weightedSum weight (sorted.map KeyedEntry.toEntry) := by
  cases sorted with
  | nil => exact ⟨[], rfl, by simp, rfl⟩
  | cons e rest =>
    obtain ⟨out, runs, bound, sum⟩ := KeyedEntry.sumRuns_total weight small rest dyadic
    refine ⟨out.filter fun e => e.coefficient ≠ 0, by rw [KeyedEntry.merge, runs]; rfl, ?_, ?_⟩
    · exact fun x inside => bound x (List.mem_filter.mp inside).1
    · exact (weightedSum_filter weight out).trans sum

/-- Entries that collate have keys. -/
theorem exists_key_of_collate {op : Deferred} {opScale : Rat} {a : Multivector}
    (collated : collate entries op opScale = .ok a) :
    ∀ e ∈ entries, ∃ key, MonomialKey.ofPowers e.monomial.powers = .ok key := by
  intro e inside
  obtain ⟨ts, terms, -⟩ := Result.bind_eq_ok.mp collated
  obtain ⟨keyed, -, made, -⟩ := collateTerms_eq_ok terms
  obtain ⟨x, -, keyOf⟩ := Result.exists_of_mapM_mem (Result.mapM_eq_ok.mpr made) inside
  obtain ⟨key, keyed, -⟩ := Result.bind_eq_ok.mp keyOf
  exact ⟨key, keyed⟩

/-- Entries with exact coefficients and with keys collate, and keep their total. -/
theorem collate_total {M : Type} [AddCommGroup M] [Module Rat M] (weight : Nat → List Power → M)
    {k : Nat} (small : k ≤ exactBits) (dyadic : DyadicEntries k entries)
    (keys : ∀ e ∈ entries, ∃ key, MonomialKey.ofPowers e.monomial.powers = .ok key)
    (op : Deferred) (opScale : Rat) :
    ∃ a, collate entries op opScale = .ok a ∧ DyadicEntries k a.entries ∧
      weightedSum weight a.entries = weightedSum weight entries := by
  -- Every entry has a key by assumption.
  obtain ⟨keyed, mapped⟩ : ∃ keyed, entries.mapM KeyedEntry.ofEntry = .ok keyed := by
    refine Result.exists_mapM_ok fun e inside => ?_
    obtain ⟨key, keyOf⟩ := keys e inside
    exact ⟨_, by rw [KeyedEntry.ofEntry, keyOf]; rfl⟩
  -- Without their keys these are the entries again.
  have same : keyed.map KeyedEntry.toEntry = entries := by
    have pairs := Result.mapM_eq_ok.mp mapped
    clear mapped dyadic keys
    induction pairs with
    | nil => rfl
    | cons made _ ih => rw [List.map_cons, (KeyedEntry.toEntry_of_ofEntry made).1, ih]
  have perm := List.mergeSort_perm keyed fun a b => (KeyedEntry.compare a b).isLE
  obtain ⟨merged, summed, bound, sum⟩ := merge_total weight small
    (keyed.mergeSort fun a b => (KeyedEntry.compare a b).isLE) fun x inside => by
      have member : x.toEntry ∈ entries := same ▸ List.mem_map_of_mem (perm.mem_iff.mp inside)
      exact dyadic _ member
  have grouped : (KeyedEntry.group merged).flatMap Term.entries =
      merged.map KeyedEntry.toEntry := KeyedEntry.entries_group merged
  refine ⟨⟨KeyedEntry.group merged, op, opScale⟩, ?_, ?_, ?_⟩
  · -- The three steps are put together.
    rw [collate, collateTerms, mapped, Result.ok_bind]
    dsimp only
    rw [summed]
    rfl
  · intro e inside
    rw [Multivector.entries, grouped] at inside
    obtain ⟨x, member, rfl⟩ := List.mem_map.mp inside
    exact bound x member
  · -- Sorting reorders the addends of the total, and merging and gathering keep it.
    rw [Multivector.entries, grouped, sum, weightedSum_perm weight (perm.map _), same]

end Collate

end Clifford
