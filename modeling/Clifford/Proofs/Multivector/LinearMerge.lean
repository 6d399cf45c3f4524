import Clifford.Proofs.Multivector.Merge
import Clifford.Proofs.Multivector.Product
import Clifford.Proofs.Multivector.Totality
import Clifford.Proofs.Multivector.Unique

/-! The linear merge of canonical sums: it gives the same result as sorting all entries and adding up
their runs, also where coefficients are rounded and where a sum overflows. -/

namespace Clifford

open Std

/-- Coefficients may be added in either order. -/
theorem gatedAdd_comm (x y : Rat) : gatedAdd x y = gatedAdd y x := by
  rw [gatedAdd, gatedAdd, add_comm]

namespace KeyedEntry

/-- An entry comes strictly before another one in the canonical order. -/
def Less (a b : KeyedEntry) : Prop := compare a b = .lt

/-- An entry comes before another one or has its place. -/
def AtMost (a b : KeyedEntry) : Prop := (compare a b).isLE = true

variable {a b c x y : KeyedEntry} {s t xs ys : List KeyedEntry}

/-- The canonical order is transitive. -/
theorem Less.trans (first : a.Less b) (second : b.Less c) : a.Less c :=
  TransCmp.lt_trans first second

/-- An entry that comes strictly before another one does not follow it. -/
theorem Less.not_atMost (less : a.Less b) : ¬ b.AtMost a := by
  -- The other way round the comparison gives the opposite, which is greater and not less or equal.
  have swap : compare a b = (compare b a).swap := OrientedCmp.eq_swap
  rw [Less, swap, Ordering.swap_eq_lt] at less
  simp [AtMost, less]

/-- Alike entries have the same place, from which they are compared with others. -/
theorem Less.congr (less : a.Less c) (same : compare a b = .eq) : b.Less c := by
  obtain ⟨element, key⟩ : a.element = b.element ∧ a.key = b.key := by
    simpa [alike] using (compare_eq_eq a b).mp same
  -- Coefficients have no part in a comparison.
  rw [Less, compare] at less ⊢
  rwa [← element, ← key]

/-- A sorted list starts with the entry that comes before all others in it. -/
theorem sorted_cons (sorted : s.Pairwise AtMost) (perm : s.Perm (x :: t))
    (least : ∀ y ∈ t, x.Less y) : ∃ s', s = x :: s' ∧ s'.Perm t ∧ s'.Pairwise AtMost := by
  -- The head is the least entry, or it is another one and the least stands behind it.
  cases s with
  | nil => exact absurd perm.symm.length_eq (by simp)
  | cons z s' =>
    obtain ⟨first, sorted'⟩ := List.pairwise_cons.mp sorted
    rcases List.mem_cons.mp (perm.mem_iff.mp List.mem_cons_self) with rfl | later
    · exact ⟨s', rfl, perm.cons_inv, sorted'⟩
    · -- The least entry cannot stand behind another one.
      rcases List.mem_cons.mp (perm.mem_iff.mpr (List.mem_cons_self (l := t))) with rfl | behind
      · exact ⟨s', rfl, perm.cons_inv, sorted'⟩
      · exact absurd (first x behind) (least z later).not_atMost

/-- A sorted list starts with the two alike entries that come before all others in it. -/
theorem sorted_cons_cons (sorted : s.Pairwise AtMost) (perm : s.Perm (x :: y :: t))
    (same : compare x y = .eq) (least : ∀ z ∈ t, x.Less z) :
    ∃ s', (s = x :: y :: s' ∨ s = y :: x :: s') ∧ s'.Perm t ∧ s'.Pairwise AtMost := by
  have least' : ∀ z ∈ t, y.Less z := fun z inside => (least z inside).congr same
  -- Either of the two may be the head, and then the other one heads what follows it.
  cases s with
  | nil => exact absurd perm.symm.length_eq (by simp)
  | cons z s' =>
    obtain ⟨first, sorted'⟩ := List.pairwise_cons.mp sorted
    have head := perm.mem_iff.mp (List.mem_cons_self (a := z) (l := s'))
    simp only [List.mem_cons] at head
    rcases head with rfl | rfl | later
    · -- Without the first of the two, the second is the least entry.
      obtain ⟨s'', rfl, rest⟩ := sorted_cons sorted' perm.cons_inv least'
      exact ⟨s'', .inl rfl, rest⟩
    · obtain ⟨s'', rfl, rest⟩ := sorted_cons sorted' (perm.trans (.swap _ _ _)).cons_inv least
      exact ⟨s'', .inr rfl, rest⟩
    · -- One of the two stands behind an entry that it comes before.
      have behind : x ∈ z :: s' := perm.mem_iff.mpr List.mem_cons_self
      rcases List.mem_cons.mp behind with rfl | inside
      · exact absurd (least x later) (by simp [Less, ReflCmp.compare_self])
      · exact absurd (first x inside) (least z later).not_atMost

/-- An entry that comes before all others is a run of its own. -/
theorem merge_cons (nonzero : x.coefficient ≠ 0) (least : ∀ y ∈ s, x.Less y) :
    merge (x :: s) = do return x :: (← merge s) := by
  -- The next entry is not alike, so that the run of the first one ends at once.
  cases s with
  | nil => simp [merge, sumRuns, nonzero, pure, Except.pure]
  | cons y s =>
    have differ : ¬ alike x y = true := by
      rw [← compare_eq_eq]
      have less := least y List.mem_cons_self
      rw [Less] at less
      simp [less]
    -- What follows is merged as if it stood alone.
    rw [merge, merge, sumRuns, if_neg differ]
    cases sumRuns y s with
    | error cause => rfl
    | ok out => simp [nonzero, pure, Except.pure]

/-- Two alike entries that come before all others are added, and vanish if their sum does. -/
theorem merge_cons_cons (same : compare x y = .eq) (least : ∀ z ∈ s, x.Less z) :
    merge (x :: y :: s) = do
      let q ← gatedAdd x.coefficient y.coefficient
      let rest ← merge s
      return if q = 0 then rest else { x with coefficient := q } :: rest := by
  rw [merge, sumRuns, if_pos ((compare_eq_eq x y).mp same)]
  cases gatedAdd x.coefficient y.coefficient with
  | error cause => rfl
  | ok q =>
    -- The run goes on with the sum, and ends there, as the entry behind is not alike.
    cases s with
    | nil => by_cases zero : q = 0 <;> simp [merge, sumRuns, zero, pure, Except.pure]
    | cons z s =>
      have differ : ¬ alike { x with coefficient := q } z = true := by
        rw [← compare_eq_eq]
        have less := least z List.mem_cons_self
        rw [Less, compare] at less
        rw [compare]
        simp [less]
      rw [Result.ok_bind, sumRuns, if_neg differ, merge]
      cases sumRuns z s with
      | error cause => rfl
      | ok out => by_cases zero : q = 0 <;> simp [zero, pure, Except.pure]

/-- Of sorted entries the one that comes before all others is merged first. -/
theorem merge_least (sorted : s.Pairwise AtMost) (perm : s.Perm (x :: t)) (nonzero : x.coefficient ≠ 0)
    (least : ∀ y ∈ t, x.Less y) :
    ∃ s', merge s = (do return x :: (← merge s')) ∧ s'.Perm t ∧ s'.Pairwise AtMost := by
  obtain ⟨s', rfl, perm', sorted'⟩ := sorted_cons sorted perm least
  exact ⟨s', merge_cons nonzero fun y inside => least y (perm'.mem_iff.mp inside), perm', sorted'⟩

/-- Of sorted entries the two alike ones that come before all others are added first. -/
theorem merge_least_two (sorted : s.Pairwise AtMost) (perm : s.Perm (x :: y :: t))
    (same : compare x y = .eq) (least : ∀ z ∈ t, x.Less z) :
    ∃ s', merge s = (do
      let q ← gatedAdd x.coefficient y.coefficient
      let rest ← merge s'
      return if q = 0 then rest else { x with coefficient := q } :: rest) ∧
        s'.Perm t ∧ s'.Pairwise AtMost := by
  obtain ⟨s', heads, perm', sorted'⟩ := sorted_cons_cons sorted perm same least
  have behind : ∀ z ∈ s', x.Less z := fun z inside => least z (perm'.mem_iff.mp inside)
  refine ⟨s', ?_, perm', sorted'⟩
  -- Which of the two comes first does not matter to their sum, nor to its place.
  rcases heads with rfl | rfl
  · exact merge_cons_cons same behind
  · obtain ⟨element, key⟩ : x.element = y.element ∧ x.key = y.key := by
      simpa [alike] using (compare_eq_eq x y).mp same
    rw [merge_cons_cons (OrientedCmp.eq_symm same) fun z inside => (behind z inside).congr same,
      gatedAdd_comm]
    simp only [element, key]

/-- The lesser head of two lists in strict order comes before all other entries. -/
theorem least_of_heads (left : (x :: xs).Pairwise Less) (right : (y :: ys).Pairwise Less)
    (less : x.Less y) : ∀ z ∈ xs ++ y :: ys, x.Less z := by
  intro z inside
  rcases List.mem_append.mp inside with old | new
  · exact (List.pairwise_cons.mp left).1 z old
  · -- The rest of the other list is behind its head.
    rcases List.mem_cons.mp new with rfl | later
    · exact less
    · exact less.trans ((List.pairwise_cons.mp right).1 z later)

/-- The merge of two lists in strict order, where alike entries are added and dropped if they
vanish. -/
def linearMerge : List KeyedEntry → List KeyedEntry → Result (List KeyedEntry)
  | [], ys => .ok ys
  | xs, [] => .ok xs
  | x :: xs, y :: ys =>
    -- The lesser of the two heads comes first, and heads with the same place are added.
    match compare x y with
    | .lt => do return x :: (← linearMerge xs (y :: ys))
    | .gt => do return y :: (← linearMerge (x :: xs) ys)
    | .eq => do
      let q ← gatedAdd x.coefficient y.coefficient
      let rest ← linearMerge xs ys
      return if q = 0 then rest else { x with coefficient := q } :: rest
termination_by xs ys => xs.length + ys.length

@[simp] theorem linearMerge_nil_left : linearMerge [] ys = .ok ys := by
  rw [linearMerge]

@[simp] theorem linearMerge_nil_right : linearMerge xs [] = .ok xs := by
  cases xs <;> rw [linearMerge]
  simp

/-- Entries in strict order without zeros are merged as they are. -/
theorem merge_of_less (xs : List KeyedEntry) : xs.Pairwise Less →
    (∀ x ∈ xs, x.coefficient ≠ 0) → merge xs = .ok xs := by
  -- Strict order makes each entry a run of its own.
  induction xs with
  | nil => exact fun _ _ => rfl
  | cons x xs ih =>
    intro ordered nonzero
    obtain ⟨least, rest⟩ := List.pairwise_cons.mp ordered
    rw [merge_cons (nonzero x List.mem_cons_self) least,
      ih rest fun y inside => nonzero y (List.mem_cons_of_mem _ inside)]
    rfl

/-- A list in strict order is the only sorted list of its entries. -/
theorem eq_of_sorted (sorted : s.Pairwise AtMost) (perm : s.Perm xs) (ordered : xs.Pairwise Less) :
    s = xs := by
  -- Both start with the least entry, and what remains is sorted again.
  induction xs generalizing s with
  | nil => exact perm.eq_nil
  | cons x xs ih =>
    obtain ⟨least, rest⟩ := List.pairwise_cons.mp ordered
    obtain ⟨s', rfl, perm', sorted'⟩ := sorted_cons sorted perm least
    rw [ih sorted' perm' rest]

/-- Entries of two lists are among those of the lists with a head on the right. -/
theorem right_subset (y : KeyedEntry) : xs ++ ys ⊆ xs ++ y :: ys :=
  ((List.sublist_cons_self y ys).append_left xs).subset

/-- Entries of two lists are among those of the lists with a head on both sides. -/
theorem both_subset (x y : KeyedEntry) : xs ++ ys ⊆ x :: xs ++ y :: ys :=
  List.Subset.trans (right_subset y) (List.subset_cons_self x _)

/-- Adding up the runs of all entries, however equals are sorted, is the linear merge. -/
theorem merge_eq_linearMerge (xs ys : List KeyedEntry) : ∀ {s : List KeyedEntry},
    xs.Pairwise Less → ys.Pairwise Less → (∀ x ∈ xs ++ ys, x.coefficient ≠ 0) →
      s.Pairwise AtMost → s.Perm (xs ++ ys) → merge s = linearMerge xs ys := by
  -- The cases of the linear merge: the lesser head of the two lists is the head of the sorted list, and
  -- heads that are alike are a run of two there.
  induction xs, ys using linearMerge.induct with
  | case1 ys =>
    intro s _ right nonzero sorted perm
    -- One list is all there is, and sorting it changes nothing.
    rw [eq_of_sorted sorted perm right, linearMerge_nil_left]
    exact merge_of_less ys right nonzero
  | case2 xs =>
    intro s left _ nonzero sorted perm
    rw [List.append_nil] at perm nonzero
    rw [eq_of_sorted sorted perm left, linearMerge_nil_right]
    exact merge_of_less xs left nonzero
  | case3 x xs y ys less ih =>
    intro s left right nonzero sorted perm
    obtain ⟨s', merged, perm', sorted'⟩ :=
      merge_least sorted perm (nonzero x (by simp)) (least_of_heads left right less)
    rw [merged, linearMerge, ih left.of_cons right
      (fun z inside => nonzero z (List.mem_cons_of_mem _ inside)) sorted' perm']
    simp only [less]
  | case4 x xs y ys greater ih =>
    intro s left right nonzero sorted perm
    -- Now the head on the right is the least of all entries.
    have least := least_of_heads right left (OrientedCmp.lt_of_gt greater)
    obtain ⟨s', merged, perm', sorted'⟩ := merge_least sorted (perm.trans List.perm_middle)
      (nonzero y (by simp)) fun z inside => least z (List.perm_append_comm.mem_iff.mp inside)
    rw [merged, linearMerge, ih left right.of_cons
      (fun z inside => nonzero z (right_subset y inside)) sorted' perm']
    simp only [greater]
  | case5 x xs y ys same ih =>
    intro s left right nonzero sorted perm
    -- Both heads come before everything else, and they stand in one run.
    have least : ∀ z ∈ xs ++ ys, x.Less z := by
      intro z inside
      rcases List.mem_append.mp inside with old | new
      · exact (List.pairwise_cons.mp left).1 z old
      · exact ((List.pairwise_cons.mp right).1 z new).congr (OrientedCmp.eq_symm same)
    obtain ⟨s', merged, perm', sorted'⟩ :=
      merge_least_two sorted (perm.trans (List.perm_middle.cons x)) same least
    rw [merged, linearMerge, ih left.of_cons right.of_cons
      (fun z inside => nonzero z (both_subset x y inside)) sorted' perm']
    simp only [same]

/-- Entries on the left that all come before those on the right are merged first. -/
theorem linearMerge_append_left (xs : List KeyedEntry) : ∀ {us vs : List KeyedEntry},
    (∀ x ∈ xs, ∀ v ∈ vs, x.Less v) →
      linearMerge (xs ++ us) vs = do return xs ++ (← linearMerge us vs) := by
  -- Each entry is less than the head of the other list, so the branch is always the first one.
  induction xs with
  | nil => exact fun _ => (bind_pure _).symm
  | cons x xs ih =>
    intro us vs below
    cases vs with
    | nil => simp
    | cons v vs =>
      have less : compare x v = .lt := below x (by simp) v (by simp)
      rw [List.cons_append, linearMerge]
      simp only [less]
      rw [ih fun y inside => below y (List.mem_cons_of_mem _ inside)]
      simp

/-- Entries on the right that all come before those on the left are merged first. -/
theorem linearMerge_append_right (ys : List KeyedEntry) : ∀ {us vs : List KeyedEntry},
    (∀ y ∈ ys, ∀ u ∈ us, y.Less u) →
      linearMerge us (ys ++ vs) = do return ys ++ (← linearMerge us vs) := by
  -- The mirror image, by the second branch.
  induction ys with
  | nil => exact fun _ => (bind_pure _).symm
  | cons y ys ih =>
    intro us vs below
    cases us with
    | nil => simp
    | cons u us =>
      have greater : compare u y = .gt := OrientedCmp.gt_of_lt (below y (by simp) u (by simp))
      rw [List.cons_append, linearMerge]
      simp only [greater]
      rw [ih fun z inside => below z (List.mem_cons_of_mem _ inside)]
      simp

/-- Entries that all come before those of two other lists are merged first. -/
theorem linearMerge_append (xs ys : List KeyedEntry) : ∀ {us vs : List KeyedEntry},
    (∀ x ∈ xs ++ ys, ∀ u ∈ us ++ vs, x.Less u) →
      linearMerge (xs ++ us) (ys ++ vs) = do
        let first ← linearMerge xs ys
        let rest ← linearMerge us vs
        return first ++ rest := by
  -- Where one list is used up, what is left of the other comes before the second parts as a whole.
  -- While both lists last, the second parts are not looked at, and both sides take the same branch.
  induction xs, ys using linearMerge.induct with
  | case1 ys =>
    intro us vs below
    rw [linearMerge_nil_left, List.nil_append, Result.ok_bind]
    exact linearMerge_append_right ys
      fun y inside u member => below y (by simpa using inside) u (by simp [member])
  | case2 xs =>
    intro us vs below
    rw [linearMerge_nil_right, List.nil_append, Result.ok_bind]
    exact linearMerge_append_left xs
      fun x inside v member => below x (by simpa using inside) v (by simp [member])
  | case3 x xs y ys less ih =>
    intro us vs below
    rw [List.cons_append, List.cons_append, linearMerge, linearMerge]
    simp only [less]
    rw [← List.cons_append, ih fun z inside => below z (List.mem_cons_of_mem _ inside)]
    simp
  | case4 x xs y ys greater ih =>
    intro us vs below
    rw [List.cons_append, List.cons_append, linearMerge, linearMerge]
    simp only [greater]
    rw [← List.cons_append, ih fun z inside => below z (right_subset y inside)]
    simp
  | case5 x xs y ys same ih =>
    intro us vs below
    rw [List.cons_append, List.cons_append, linearMerge, linearMerge]
    simp only [same]
    rw [ih fun z inside => below z (both_subset x y inside)]
    cases gatedAdd x.coefficient y.coefficient with
    | error cause => rfl
    | ok q => by_cases zero : q = 0 <;> simp [zero]

end KeyedEntry

/-- Entries with their places. -/
def Keyed (es : List Entry) (ks : List KeyedEntry) : Prop := es.mapM KeyedEntry.ofEntry = .ok ks

namespace Keyed

variable {e : Entry} {es fs : List Entry} {x : KeyedEntry} {ks : List KeyedEntry}

/-- Nothing has no places. -/
theorem of_nil (keyed : Keyed [] ks) : ks = [] := by
  cases keyed
  rfl

/-- Places are taken one by one. -/
theorem of_cons (keyed : Keyed (e :: es) ks) :
    ∃ x xs, ks = x :: xs ∧ KeyedEntry.ofEntry e = .ok x ∧ Keyed es xs := by
  -- The traversal takes the place of the first entry and goes on with the others.
  rw [Keyed, List.mapM_cons] at keyed
  obtain ⟨x, first, rest⟩ := Result.bind_eq_ok.mp keyed
  obtain ⟨xs, others, done⟩ := Result.bind_eq_ok.mp rest
  cases done
  exact ⟨x, xs, rfl, first, others⟩

/-- Places are taken part by part. -/
theorem of_append (keyed : Keyed (es ++ fs) ks) :
    ∃ xs ys, ks = xs ++ ys ∧ Keyed es xs ∧ Keyed fs ys := by
  rw [Keyed, List.mapM_append] at keyed
  obtain ⟨xs, first, rest⟩ := Result.bind_eq_ok.mp keyed
  obtain ⟨ys, second, done⟩ := Result.bind_eq_ok.mp rest
  cases done
  exact ⟨xs, ys, rfl, first, second⟩

/-- Entries in two parts have the places of both. -/
theorem append {xs ys : List KeyedEntry} (left : Keyed es xs) (right : Keyed fs ys) :
    Keyed (es ++ fs) (xs ++ ys) := by
  rw [Keyed] at left right
  rw [Keyed, List.mapM_append, left, Result.ok_bind, right]
  rfl

/-- Entries in another order have the same places in another order. -/
theorem perm (keyed : Keyed es ks) (reordered : fs.Perm es) : ∃ ls, Keyed fs ls ∧ ls.Perm ks := by
  -- An exchange of two neighbours exchanges their places.
  induction reordered generalizing ks with
  | nil => exact ⟨ks, keyed, .refl _⟩
  | cons e _ ih =>
    obtain ⟨x, xs, rfl, first, rest⟩ := keyed.of_cons
    obtain ⟨ys, others, same⟩ := ih rest
    refine ⟨x :: ys, ?_, same.cons x⟩
    rw [Keyed, List.mapM_cons, first, Result.ok_bind, others]
    rfl
  | swap e f _ =>
    obtain ⟨x, xs, rfl, first, rest⟩ := keyed.of_cons
    obtain ⟨y, ys, rfl, second, others⟩ := rest.of_cons
    refine ⟨y :: x :: ys, ?_, .swap x y ys⟩
    rw [Keyed, List.mapM_cons, second, Result.ok_bind, List.mapM_cons, first, Result.ok_bind, others]
    rfl
  | trans _ _ first second =>
    obtain ⟨ls, between, same⟩ := second keyed
    obtain ⟨ms, outer, same'⟩ := first between
    exact ⟨ms, outer, same'.trans same⟩

/-- A place forgets nothing about its entry. -/
theorem toEntry (keyed : Keyed es ks) : ks.map KeyedEntry.toEntry = es := by
  induction es generalizing ks with
  | nil =>
    cases keyed
    rfl
  | cons e es ih =>
    obtain ⟨x, xs, rfl, first, rest⟩ := keyed.of_cons
    rw [List.map_cons, ih rest, (KeyedEntry.toEntry_of_ofEntry first).1]

/-- Every place is that of an entry. -/
theorem mem (keyed : Keyed es ks) (inside : x ∈ ks) : x.toEntry ∈ es := by
  rw [← keyed.toEntry]
  exact List.mem_map_of_mem inside

end Keyed

namespace Multivector

open KeyedEntry

/-- Merging the monomials on a blade is the linear merge of their entries. -/
theorem mergeMonomials_eq_linearMerge (element : Nat) (ms ns : List Monomial) :
    ∀ {ks ls : List KeyedEntry}, Keyed (Term.entries ⟨element, ms⟩) ks →
      Keyed (Term.entries ⟨element, ns⟩) ls →
      (fun rs => Term.entries ⟨element, rs⟩) <$> mergeMonomials ms ns =
        List.map toEntry <$> linearMerge ks ls := by
  -- Both merges are the same recursion, one on monomials and one on their places.
  induction ms, ns using mergeMonomials.induct with
  | case1 ns =>
    intro ks ls left right
    obtain rfl := left.of_nil
    rw [mergeMonomials, linearMerge_nil_left, Result.map_ok, Result.map_ok, right.toEntry]
  | case2 ms nonempty =>
    intro ks ls left right
    obtain rfl := right.of_nil
    rw [mergeMonomials, linearMerge_nil_right, Result.map_ok, Result.map_ok, left.toEntry]
    exact nonempty
  | case3 a as b bs ihLeft ihRight ihBoth =>
    intro ks ls left right
    obtain ⟨x, xs, rfl, first, restLeft⟩ := left.of_cons
    obtain ⟨y, ys, rfl, second, restRight⟩ := right.of_cons
    -- Each head has a total degree and keeps its powers as the rest of its place.
    obtain ⟨⟨degree, powers⟩, keyed, made⟩ := Result.bind_eq_ok.mp first
    obtain ⟨⟨degree', powers'⟩, keyed', made'⟩ := Result.bind_eq_ok.mp second
    cases made
    cases made'
    obtain rfl : powers = a.powers := MonomialKey.powers_of_ok keyed
    obtain rfl : powers' = b.powers := MonomialKey.powers_of_ok keyed'
    -- On one blade, entries are ordered as their monomials are.
    have order : KeyedEntry.compare ⟨element, ⟨degree, a.powers⟩, a.coefficient⟩
        ⟨element, ⟨degree', b.powers⟩, b.coefficient⟩ =
        MonomialKey.compare ⟨degree, a.powers⟩ ⟨degree', b.powers⟩ := by
      rw [KeyedEntry.compare]
      simp
    dsimp only at keyed keyed'
    rw [mergeMonomials, linearMerge, order, keyed, keyed', Result.ok_bind, Result.ok_bind]
    -- In each case the same entry, if any, is put before what is left on both sides.
    cases MonomialKey.compare ⟨degree, a.powers⟩ ⟨degree', b.powers⟩ with
    | lt =>
      exact Result.map_return_eq (ihLeft restLeft right) fun rs rs' same =>
        congrArg (List.cons (⟨element, a⟩ : Entry)) same
    | gt =>
      exact Result.map_return_eq (ihRight left restRight) fun rs rs' same =>
        congrArg (List.cons (⟨element, b⟩ : Entry)) same
    | eq =>
      cases gatedAdd a.coefficient b.coefficient with
      | error cause => rfl
      | ok q =>
        refine Result.map_return_eq (ihBoth restLeft restRight) fun rs rs' same => ?_
        split
        · exact same
        · exact congrArg (List.cons (⟨element, ⟨q, a.powers⟩⟩ : Entry)) same

/-- The entries of a term lie on its blade. -/
theorem element_of_keyed {t : Term} {ks : List KeyedEntry} (keyed : Keyed t.entries ks) :
    ∀ x ∈ ks, x.element = t.element := by
  intro x inside
  obtain ⟨m, -, made⟩ := List.mem_map.mp (keyed.mem inside)
  exact congrArg Entry.element made.symm

/-- The entries of terms on higher blades come behind those of a term. -/
theorem less_of_keyed {t : Term} {us : List Term} {ks ls : List KeyedEntry} (first : Keyed t.entries ks)
    (rest : Keyed (us.flatMap Term.entries) ls) (above : ∀ u ∈ us, t.element < u.element) :
    ∀ x ∈ ks, ∀ y ∈ ls, x.Less y := by
  intro x inside y later
  obtain ⟨u, member, entry⟩ := List.mem_flatMap.mp (rest.mem later)
  obtain ⟨m, -, made⟩ := List.mem_map.mp entry
  have element : u.element = y.element := congrArg Entry.element made
  -- The blade is compared first, whatever the monomials are.
  refine (compare_eq_lt x y).mpr (.inl ?_)
  rw [element_of_keyed first x inside, ← element]
  exact above u member


/-- The entries of two first terms on the same blade come before those of all later terms. -/
theorem less_of_keyed_both {s t : Term} {ss ts : List Term} {xs ys ks ls : List KeyedEntry}
    (element : s.element = t.element) (orderedLeft : ((s :: ss).map (·.element)).Pairwise (· < ·))
    (orderedRight : ((t :: ts).map (·.element)).Pairwise (· < ·)) (first : Keyed s.entries xs)
    (others : Keyed (ss.flatMap Term.entries) ks) (first' : Keyed t.entries ys)
    (others' : Keyed (ts.flatMap Term.entries) ls) : ∀ x ∈ xs ++ ys, ∀ u ∈ ks ++ ls, x.Less u := by
  intro x inside u later
  have left := element_lt_of_head orderedLeft
  have right := element_lt_of_head orderedRight
  -- Either first term stands before the rest of its own list and of the other one.
  rcases List.mem_append.mp inside with row | row <;> rcases List.mem_append.mp later with old | new
  · exact less_of_keyed first others left x row u old
  · exact less_of_keyed first others' (element ▸ right) x row u new
  · exact less_of_keyed first' others (element ▸ left) x row u old
  · exact less_of_keyed first' others' right x row u new

/-- Merging terms is the linear merge of their entries. -/
theorem mergeTerms_eq_linearMerge (ss ts : List Term) : ∀ {ks ls : List KeyedEntry},
    (ss.map (·.element)).Pairwise (· < ·) → (ts.map (·.element)).Pairwise (· < ·) →
      Keyed (ss.flatMap Term.entries) ks → Keyed (ts.flatMap Term.entries) ls →
      List.flatMap Term.entries <$> mergeTerms ss ts = List.map toEntry <$> linearMerge ks ls := by
  -- A step of the merge of terms is as many steps of the linear merge as the least blade has entries,
  -- since these come before all others.
  induction ss, ts using mergeTerms.induct with
  | case1 ts =>
    intro ks ls _ _ left right
    obtain rfl := left.of_nil
    rw [mergeTerms, linearMerge_nil_left, Result.map_ok, Result.map_ok, right.toEntry]
  | case2 ss nonempty =>
    intro ks ls _ _ left right
    obtain rfl := right.of_nil
    rw [mergeTerms, linearMerge_nil_right, Result.map_ok, Result.map_ok, left.toEntry]
    exact nonempty
  | case3 s ss t ts less ih =>
    intro ks ls orderedLeft orderedRight left right
    -- The whole term on the left is merged with nothing.
    obtain ⟨xs, ks', rfl, first, others⟩ := Keyed.of_append left
    have below := less_of_keyed first right (element_lt_of_ordered orderedRight less)
    rw [mergeTerms, if_pos less, linearMerge_append_left xs below]
    refine Result.map_return_eq (ih orderedLeft.of_cons orderedRight others right)
      fun us rs same => ?_
    rw [List.flatMap_cons, List.map_append, same, first.toEntry]
  | case4 s ss t ts notLess less ih =>
    intro ks ls orderedLeft orderedRight left right
    -- The same from the right.
    obtain ⟨ys, ls', rfl, first, others⟩ := Keyed.of_append right
    have below := less_of_keyed first left (element_lt_of_ordered orderedLeft less)
    rw [mergeTerms, if_neg notLess, if_pos less, linearMerge_append_right ys below]
    refine Result.map_return_eq (ih orderedLeft orderedRight.of_cons left others)
      fun us rs same => ?_
    rw [List.flatMap_cons, List.map_append, same, first.toEntry]
  | case5 s ss t ts notLess notGreater ih =>
    intro ks ls orderedLeft orderedRight left right
    obtain ⟨xs, ks', rfl, first, others⟩ := Keyed.of_append left
    obtain ⟨ys, ls', rfl, first', others'⟩ := Keyed.of_append right
    have element : s.element = t.element := by omega
    -- The blade is on both sides, so its monomials are merged first.
    have below := less_of_keyed_both element orderedLeft orderedRight first others first' others'
    have blade := mergeMonomials_eq_linearMerge s.element s.monomials t.monomials first
      (by rw [element]; exact first')
    rw [mergeTerms, if_neg notLess, if_neg notGreater, linearMerge_append xs ys below]
    refine Result.map_bind_eq blade fun rs ks same => ?_
    refine Result.map_return_eq
      (ih orderedLeft.of_cons orderedRight.of_cons others others') fun us ls later => ?_
    rw [List.map_append, ← same, ← later]
    -- A blade without monomials has no entries.
    split
    · rename_i empty
      rw [List.isEmpty_iff.mp empty]
      rfl
    · rw [List.flatMap_cons]

/-- The entries of a canonical multivector have places, which are in strict order, and no entry is
zero. -/
theorem Canonical.exists_keyed {a : Multivector} (canonical : a.Canonical) :
    ∃ ks, Keyed a.entries ks ∧ ks.Pairwise KeyedEntry.Less ∧ ∀ x ∈ ks, x.coefficient ≠ 0 := by
  -- Canonical powers have a total degree, so every entry has a place.
  obtain ⟨ks, keyed⟩ : ∃ ks, Keyed a.entries ks := by
    refine Result.exists_mapM_ok fun e inside => ?_
    obtain ⟨key, keyOf⟩ := (canonical.entry inside).keyed
    exact ⟨_, by rw [KeyedEntry.ofEntry, keyOf]; rfl⟩
  refine ⟨ks, keyed, ?_, fun x inside => (canonical.entry (keyed.mem inside)).nonzero⟩
  -- The order of entries is that of their places.
  have ordered := canonical.entries_ordered
  have places := Result.mapM_eq_ok.mp keyed
  rw [← keyed.toEntry, List.pairwise_map] at ordered
  refine ordered.imp_of_mem fun {x y} left right before => ?_
  have lawful {z : KeyedEntry} (inside : z ∈ ks) : MonomialKey.ofPowers z.key.powers = .ok z.key := by
    obtain ⟨e, -, made⟩ := Result.exists_of_mem_mapM keyed inside
    exact (KeyedEntry.toEntry_of_ofEntry made).2
  refine (compare_eq_lt x y).mpr ?_
  -- On one blade the order speaks of keys that both entries have, which are those of their places.
  rcases before with less | ⟨element, k, l, first, second, less⟩
  · exact .inl less
  · obtain rfl : x.key = k := Except.ok.inj ((lawful left).symm.trans first)
    obtain rfl : y.key = l := Except.ok.inj ((lawful right).symm.trans second)
    exact .inr ⟨element, less⟩

variable {a b : Multivector}

/-- Collation of the entries of two canonical multivectors, in any order, is the linear merge of their
places. -/
theorem collateTerms_eq_linearMerge {es : List Entry} {keyed ks ls : List KeyedEntry}
    (places : Keyed es keyed) (perm : keyed.Perm (ks ++ ls)) (left : ks.Pairwise KeyedEntry.Less)
    (right : ls.Pairwise KeyedEntry.Less) (nonzero : ∀ x ∈ ks ++ ls, x.coefficient ≠ 0) :
    collateTerms es = do return KeyedEntry.group (← linearMerge ks ls) := by
  rw [Keyed] at places
  rw [collateTerms, places, Result.ok_bind]
  dsimp only
  -- Sorting is the only use of the order in which the entries are given.
  rw [merge_eq_linearMerge ks ls left right nonzero (pairwise_sorted _)
    ((List.mergeSort_perm _ _).trans perm)]

/-- The sum of canonical multivectors is what all their entries collate to, in either order. -/
theorem mergeTerms_eq_collateTerms (left : a.Canonical) (right : b.Canonical) :
    mergeTerms a.terms b.terms = collateTerms (a.entries ++ b.entries) ∧
      mergeTerms a.terms b.terms = collateTerms (b.entries ++ a.entries) := by
  obtain ⟨ks, keyedLeft, orderedLeft, nonzeroLeft⟩ := left.exists_keyed
  obtain ⟨ls, keyedRight, orderedRight, nonzeroRight⟩ := right.exists_keyed
  have nonzero : ∀ x ∈ ks ++ ls, x.coefficient ≠ 0 := fun x inside =>
    (List.mem_append.mp inside).elim (nonzeroLeft x) (nonzeroRight x)
  -- Either order of the operands sorts to the one linear merge of their places.
  have forward := collateTerms_eq_linearMerge (keyedLeft.append keyedRight) (.refl _) orderedLeft
    orderedRight nonzero
  have backward := collateTerms_eq_linearMerge (keyedRight.append keyedLeft)
    List.perm_append_comm orderedLeft orderedRight nonzero
  have merged := mergeTerms_eq_linearMerge a.terms b.terms left.ordered right.ordered keyedLeft
    keyedRight
  rw [backward, ← forward, and_self]
  -- Both sides are the linear merge up to the grouping, so they fail together.
  cases linear : linearMerge ks ls with
  | error cause =>
    cases terms : mergeTerms a.terms b.terms with
    | error other => simpa [linear, terms, forward] using merged
    | ok us => simp [linear, terms] at merged
  | ok rs =>
    cases terms : mergeTerms a.terms b.terms with
    | error cause => simp [linear, terms] at merged
    | ok us =>
      rw [linear, Result.ok_bind] at forward
      have entries : us.flatMap Term.entries = rs.map toEntry := by
        simpa [linear, terms] using merged
      have sum : add { terms := a.terms } { terms := b.terms } = .ok { terms := us } := by
        rw [add, terms]
        rfl
      have collated : collate (a.entries ++ b.entries) = .ok { terms := group rs } := by
        rw [collate, forward]
        rfl
      have canonical := @canonical_add { terms := a.terms } { terms := b.terms } _
        ⟨left.terms, left.ordered⟩ ⟨right.terms, right.ordered⟩ sum
      -- Terms in order are determined by their entries.
      rw [forward, terms_eq_of_entries us (fun t inside => (canonical.terms t inside).nonempty)
        (group_nonempty rs) canonical.ordered (collate_ordered collated)
        (entries.trans (entries_group rs).symm)]
      rfl

/-- The entries of a canonical multivector collate to its terms, in whatever order they come and
whatever coefficients they have. -/
theorem Canonical.collateTerms_of_perm {c : Multivector} (canonical : c.Canonical) {es : List Entry}
    (perm : es.Perm c.entries) : collateTerms es = .ok c.terms := by
  obtain ⟨ks, keyed, ordered, nonzero⟩ := canonical.exists_keyed
  obtain ⟨ls, places, same⟩ := keyed.perm perm
  have nothing : Multivector.zero.Canonical := ⟨by simp [zero], List.Pairwise.nil⟩
  -- Nothing is merged with the terms, so that they are left as they are.
  have own : collateTerms c.entries = .ok c.terms := by
    rw [← List.append_nil c.entries, show ([] : List Entry) = zero.entries from rfl,
      ← (mergeTerms_eq_collateTerms canonical nothing).1, zero]
    cases c.terms <;> simp [mergeTerms]
  have sorted {fs : List Entry} {ms : List KeyedEntry} (given : Keyed fs ms) (reordered : ms.Perm ks) :
      collateTerms fs = do return KeyedEntry.group (← linearMerge ks []) :=
    collateTerms_eq_linearMerge given (by simpa using reordered) ordered .nil (by simpa using nonzero)
  rw [sorted places same, ← sorted keyed (.refl _), own]

/-- The sum of canonical plain multivectors whose entries make up a canonical one is that one. -/
theorem add_eq_of_perm {c : Multivector} (left : a.Canonical) (right : b.Canonical)
    (canonical : c.Canonical) (plainLeft : a.Plain) (plainRight : b.Plain) (plain : c.Plain)
    (perm : (a.entries ++ b.entries).Perm c.entries) : a.add b = .ok c := by
  rw [add, requirePlain_eq_ok plainLeft.1, Result.ok_bind, requirePlain_eq_ok plainRight.1,
    Result.ok_bind, (mergeTerms_eq_collateTerms left right).1, canonical.collateTerms_of_perm perm]
  obtain ⟨terms, op, opScale⟩ := c
  obtain ⟨rfl, rfl⟩ := plain
  rfl

/-- The sum of canonical plain multivectors is what their entries collate to, so that it does not
depend on their order, and the entries of one collate to itself. A sum fails by overflow alone, and
not where the coefficients and degrees are in range. -/
theorem add_collates (left : a.Canonical) (right : b.Canonical) (plainLeft : a.Plain)
    (plainRight : b.Plain) :
    a.add b = collate (a.entries ++ b.entries) ∧ a.add b = b.add a ∧ collate a.entries = .ok a ∧
      (∀ cause, a.add b = .error cause → cause = .quotientOverflow) ∧
      (EntriesInRange (a.entries ++ b.entries) →
        ∃ c, a.add b = .ok c ∧ c.Canonical ∧ c.Plain) := by
  have sum {a b : Multivector} (left : a.Canonical) (right : b.Canonical) (plainLeft : a.Plain)
      (plainRight : b.Plain) : a.add b = collate (a.entries ++ b.entries) := by
    rw [add, requirePlain, if_pos (by simp [isPlain, plainLeft.1]), requirePlain,
      if_pos (by simp [isPlain, plainRight.1]), (mergeTerms_eq_collateTerms left right).1]
    rfl
  have swap : a.add b = b.add a := by
    rw [sum left right plainLeft plainRight, sum right left plainRight plainLeft, collate, collate,
      ← (mergeTerms_eq_collateTerms left right).1, ← (mergeTerms_eq_collateTerms left right).2]
  have own : collate a.entries = .ok a := by
    -- Collating its entries alone adds zero to it.
    have alone := (mergeTerms_eq_collateTerms (b := zero) left ⟨by simp [zero], .nil⟩).1
    have nothing : mergeTerms a.terms zero.terms = .ok a.terms := by
      cases terms : a.terms <;> simp [zero, mergeTerms]
    rw [nothing, show zero.entries = [] from rfl, List.append_nil] at alone
    rw [collate, ← alone]
    obtain ⟨terms, op, opScale⟩ := a
    obtain ⟨rfl, rfl⟩ := plainLeft
    rfl
  -- What is known of collation holds of the sum: its only failure, and the range where it has none.
  refine ⟨sum left right plainLeft plainRight, swap, own, fun cause failed => ?_, fun range => ?_⟩
  · rw [sum left right plainLeft plainRight] at failed
    exact collate_error failed
  · obtain ⟨c, collated⟩ : ∃ c, collate (a.entries ++ b.entries) = .ok c := exists_collate range
    rw [← sum left right plainLeft plainRight] at collated
    obtain ⟨us, -, rfl⟩ := add_eq_ok collated
    exact ⟨_, collated, canonical_add left right collated, rfl, rfl⟩

/-- Two sums on the same blades whose coefficients are rounded when they are added. -/
theorem add_collates_rounded :
    let a : Multivector := { terms := [⟨0, [⟨1 / 1031, []⟩]⟩, ⟨3, [⟨1 / 1031, [⟨0, 1 / 2⟩]⟩]⟩] }
    let b : Multivector := { terms := [⟨1, [⟨2, []⟩]⟩, ⟨3, [⟨5, []⟩, ⟨1 / 1033, [⟨0, 1 / 2⟩]⟩]⟩] }
    ∃ c, a.add b = .ok c ∧ b.add a = .ok c ∧ collate (a.entries ++ b.entries) = .ok c ∧
      collate a.entries = .ok a := by
  intro a b
  -- Both are canonical as the check finds, and their numbers are in range.
  obtain ⟨collated, swapped, own, -, returns⟩ := @add_collates a b (by decide +kernel)
    (by decide +kernel) ⟨rfl, rfl⟩ ⟨rfl, rfl⟩
  obtain ⟨c, sum, -⟩ := returns
    ⟨by unfold InRange; decide +kernel, by unfold InRange; decide +kernel⟩
  exact ⟨c, sum, swapped ▸ sum, collated ▸ sum, own⟩

end Multivector

end Clifford
