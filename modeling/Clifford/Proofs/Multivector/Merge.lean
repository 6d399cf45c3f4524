import Clifford.Multivector.Arithmetic
import Clifford.Proofs.Multivector.Collate

/-! Merging: two lists of monomials or of terms in order merge into one that is in order. -/

namespace Clifford

open Std

/-- Monomials in canonical order. -/
structure Ordered (ms : List Monomial) : Prop where
  canonical : ∀ m ∈ ms, m.Canonical
  before : ms.Pairwise Monomial.Before

/-- The order of monomials does not depend on their coefficients. -/
theorem Monomial.Before.congr {m m' n n' : Monomial} (before : m.Before n)
    (left : m.powers = m'.powers) (right : n.powers = n'.powers) : m'.Before n' := by
  obtain ⟨k, l, first, second, less⟩ := before
  exact ⟨k, l, left ▸ first, right ▸ second, less⟩

/-- A key holds the powers that it is made of. -/
theorem MonomialKey.powers_of_ok {powers : List Power} {key : MonomialKey}
    (keyed : ofPowers powers = .ok key) : key.powers = powers := by
  obtain ⟨degree, -, made⟩ := Result.bind_eq_ok.mp keyed
  cases made
  rfl

namespace Ordered

variable {m : Monomial} {ms : List Monomial}

/-- What follows the first monomial is in order. -/
theorem tail (ordered : Ordered (m :: ms)) : Ordered ms where
  canonical n inside := ordered.canonical n (List.mem_cons_of_mem _ inside)
  before := ordered.before.of_cons

/-- The first monomial stands before those that follow it. -/
theorem head (ordered : Ordered (m :: ms)) : ∀ n ∈ ms, m.Before n :=
  (List.pairwise_cons.mp ordered.before).1

/-- A monomial in front of those that it stands before. -/
theorem cons (canonical : m.Canonical) (before : ∀ n ∈ ms, m.Before n) (ordered : Ordered ms) :
    Ordered (m :: ms) where
  canonical := List.forall_mem_cons.mpr ⟨canonical, ordered.canonical⟩
  before := List.pairwise_cons.mpr ⟨before, ordered.before⟩

end Ordered

/-- Monomials that two lists merge to: they are in order, and each has the powers of one of the given
monomials. -/
structure Merged (ms ns rs : List Monomial) : Prop where
  ordered : Ordered rs
  source : ∀ m ∈ rs, ∃ n ∈ ms ++ ns, n.powers = m.powers

namespace Merged

variable {a b : Monomial} {as bs rs : List Monomial} {q : Rat}

/-- The order of the two lists does not matter. -/
theorem symm (merged : Merged as bs rs) : Merged bs as rs where
  ordered := merged.ordered
  source m inside := by
    obtain ⟨n, given, powers⟩ := merged.source m inside
    exact ⟨n, by simpa [or_comm] using given, powers⟩

/-- The lowest monomial of both lists comes first. -/
theorem ordered_cons (merged : Merged as (b :: bs) rs) (left : Ordered (a :: as))
    (right : Ordered (b :: bs)) (less : a.Before b) : Ordered (a :: rs) := by
  refine .cons (left.canonical a (by simp)) (fun n inside => ?_) merged.ordered
  -- What follows has the powers of a later monomial of one of the lists.
  obtain ⟨n', given, powers⟩ := merged.source n inside
  refine Monomial.Before.congr ?_ rfl powers
  rcases List.mem_append.mp given with old | new
  · exact left.head n' old
  · rcases List.mem_cons.mp new with rfl | later
    · exact less
    · exact less.trans (right.head n' later)

/-- Monomials with the same powers become one, unless its coefficient vanishes. -/
theorem ordered_both (merged : Merged as bs rs) (left : Ordered (a :: as))
    (right : Ordered (b :: bs)) (same : a.powers = b.powers) :
    Ordered (if q = 0 then rs else ⟨q, a.powers⟩ :: rs) := by
  split
  · exact merged.ordered
  · rename_i nonzero
    have canonical := left.canonical a (by simp)
    refine .cons ⟨nonzero, canonical.increasing, canonical.keyed⟩ (fun n inside => ?_) merged.ordered
    obtain ⟨n', given, powers⟩ := merged.source n inside
    rcases List.mem_append.mp given with old | new
    · exact (left.head n' old).congr rfl powers
    · exact (right.head n' new).congr same.symm powers

end Merged

/-- The monomials of a canonical term are in order. -/
theorem Term.Canonical.monomials_ordered {t : Term} (canonical : t.Canonical) :
    Ordered t.monomials := ⟨canonical.monomials, canonical.ordered⟩

namespace Multivector

/-- What a merge of monomials does first: it takes the monomial of the two first ones that stands before
the other one, or adds them where they have the same powers. -/
inductive MergeStep (a b : Monomial) (as bs rs : List Monomial) : Prop
  | left {others : List Monomial} : a.Before b → mergeMonomials as (b :: bs) = .ok others →
      rs = a :: others → MergeStep a b as bs rs
  | right {others : List Monomial} : b.Before a → mergeMonomials (a :: as) bs = .ok others →
      rs = b :: others → MergeStep a b as bs rs
  | both {q : Rat} {others : List Monomial} : a.powers = b.powers → mergeMonomials as bs = .ok others →
      rs = (if q = 0 then others else ⟨q, a.powers⟩ :: others) → MergeStep a b as bs rs

/-- A merge that returns has made its first step. -/
theorem mergeStep_of_ok {a b : Monomial} {as bs rs : List Monomial}
    (made : mergeMonomials (a :: as) (b :: bs) = .ok rs) : MergeStep a b as bs rs := by
  rw [mergeMonomials] at made
  obtain ⟨first, keyed, rest⟩ := Result.bind_eq_ok.mp made
  obtain ⟨second, keyed', rest⟩ := Result.bind_eq_ok.mp rest
  dsimp only at rest
  split at rest
  · rename_i less
    obtain ⟨others, merged, done⟩ := Result.bind_eq_ok.mp rest
    cases done
    exact .left ⟨first, second, keyed, keyed', less⟩ merged rfl
  · rename_i greater
    obtain ⟨others, merged, done⟩ := Result.bind_eq_ok.mp rest
    cases done
    exact .right ⟨second, first, keyed', keyed, OrientedCmp.lt_of_gt greater⟩ merged rfl
  · rename_i equal
    obtain ⟨q, -, rest⟩ := Result.bind_eq_ok.mp rest
    obtain ⟨others, merged, done⟩ := Result.bind_eq_ok.mp rest
    cases done
    -- Equal keys hold equal powers.
    obtain rfl := LawfulEqCmp.eq_of_compare equal
    have same : a.powers = b.powers := by
      rw [← MonomialKey.powers_of_ok keyed, ← MonomialKey.powers_of_ok keyed']
    exact .both same merged rfl

/-- A merged monomial has the powers of one of the given monomials. -/
theorem source_mergeMonomials (ms ns : List Monomial) : ∀ {rs : List Monomial},
    mergeMonomials ms ns = .ok rs → ∀ r ∈ rs, ∃ m ∈ ms ++ ns, m.powers = r.powers := by
  -- Coefficients are added, but powers are passed on.
  induction ms, ns using mergeMonomials.induct with
  | case1 ns =>
    intro rs made r inside
    rw [mergeMonomials] at made
    cases made
    exact ⟨r, List.mem_append_right _ inside, rfl⟩
  | case2 ms nonempty =>
    intro rs made r inside
    rw [mergeMonomials] at made
    · cases made
      exact ⟨r, List.mem_append_left _ inside, rfl⟩
    · exact nonempty
  | case3 a as b bs ihLeft ihRight ihBoth =>
    intro rs made r inside
    have left : ∃ m ∈ (a :: as) ++ (b :: bs), m.powers = a.powers := ⟨a, by simp, rfl⟩
    have right : ∃ m ∈ (a :: as) ++ (b :: bs), m.powers = b.powers := ⟨b, by simp, rfl⟩
    -- What comes from the remaining monomials comes from all of them.
    have later {ms ns others : List Monomial} (known : ∀ r ∈ others, ∃ m ∈ ms ++ ns,
        m.powers = r.powers) (below : ms ++ ns ⊆ (a :: as) ++ (b :: bs)) (member : r ∈ others) :
        ∃ m ∈ (a :: as) ++ (b :: bs), m.powers = r.powers := by
      obtain ⟨m, old, same⟩ := known r member
      exact ⟨m, below old, same⟩
    -- The monomial that is taken is one of the first ones, or has their powers.
    cases mergeStep_of_ok made with
    | left _ merged taken =>
      rcases List.mem_cons.mp (taken ▸ inside) with rfl | member
      · exact left
      · exact later (ihLeft merged) (by simp) member
    | right _ merged taken =>
      rcases List.mem_cons.mp (taken ▸ inside) with rfl | member
      · exact right
      · exact later (ihRight merged) (by intro m; simp; tauto) member
    | both _ merged taken =>
      have below : as ++ bs ⊆ (a :: as) ++ (b :: bs) := by intro m; simp; tauto
      rw [taken] at inside
      split at inside
      · exact later (ihBoth merged) below inside
      · rcases List.mem_cons.mp inside with rfl | member
        · exact left
        · exact later (ihBoth merged) below member

/-- Monomials in order merge into monomials in order. -/
theorem merged_mergeMonomials (ms ns : List Monomial) : ∀ {rs : List Monomial},
    Ordered ms → Ordered ns → mergeMonomials ms ns = .ok rs → Merged ms ns rs := by
  -- The monomial that is taken stands before the rest of both lists.
  induction ms, ns using mergeMonomials.induct with
  | case1 ns =>
    intro rs _ right made
    refine ⟨?_, source_mergeMonomials _ _ made⟩
    rw [mergeMonomials] at made
    cases made
    exact right
  | case2 ms nonempty =>
    intro rs left _ made
    refine ⟨?_, source_mergeMonomials _ _ made⟩
    rw [mergeMonomials] at made
    · cases made
      exact left
    · exact nonempty
  | case3 a as b bs ihLeft ihRight ihBoth =>
    intro rs left right made
    refine ⟨?_, source_mergeMonomials _ _ made⟩
    cases mergeStep_of_ok made with
    | left less merged taken =>
      rw [taken]
      exact (ihLeft left.tail right merged).ordered_cons left right less
    | right less merged taken =>
      -- With the lists exchanged, this is the case before.
      rw [taken]
      exact (ihRight left right.tail merged).symm.ordered_cons right left less
    | both same merged taken =>
      rw [taken]
      exact (ihBoth left.tail right.tail merged).ordered_both left right same

/-- Where a merged term comes from: it is one of the given terms, or merges two of them on its blade. -/
inductive MergeOrigin (ss ts : List Term) (u : Term) : Prop
  | left : u ∈ ss → MergeOrigin ss ts u
  | right : u ∈ ts → MergeOrigin ss ts u
  | both {s t : Term} : s ∈ ss → t ∈ ts → s.element = u.element → t.element = u.element →
      u.monomials ≠ [] → mergeMonomials s.monomials t.monomials = .ok u.monomials →
      MergeOrigin ss ts u

/-- More terms to merge give a merged term no other origin. -/
theorem MergeOrigin.mono {ss ss' ts ts' : List Term} {u : Term} (origin : MergeOrigin ss ts u)
    (left : ss ⊆ ss') (right : ts ⊆ ts') : MergeOrigin ss' ts' u := by
  cases origin with
  | left given => exact .left (left given)
  | right given => exact .right (right given)
  | both first second same same' nonempty sum =>
    exact .both (left first) (right second) same same' nonempty sum

/-- Every merged term has an origin. -/
theorem mem_mergeTerms (ss ts : List Term) : ∀ {us : List Term}, mergeTerms ss ts = .ok us →
    ∀ u ∈ us, MergeOrigin ss ts u := by
  -- The term that a step of the merge emits is the first of a list or made of both first ones.
  induction ss, ts using mergeTerms.induct with
  | case1 ts =>
    intro us made u inside
    rw [mergeTerms] at made
    cases made
    exact .right inside
  | case2 ss nonempty =>
    intro us made u inside
    rw [mergeTerms] at made
    · cases made
      exact .left inside
    · exact nonempty
  | case3 s ss t ts less ih =>
    intro us made u inside
    rw [mergeTerms, if_pos less] at made
    obtain ⟨others, merged, done⟩ := Result.bind_eq_ok.mp made
    cases done
    rcases List.mem_cons.mp inside with rfl | later
    · exact .left List.mem_cons_self
    · exact (ih merged u later).mono (List.subset_cons_self _ _) (List.Subset.refl _)
  | case4 s ss t ts notLess less ih =>
    intro us made u inside
    rw [mergeTerms, if_neg notLess, if_pos less] at made
    obtain ⟨others, merged, done⟩ := Result.bind_eq_ok.mp made
    cases done
    rcases List.mem_cons.mp inside with rfl | later
    · exact .right List.mem_cons_self
    · exact (ih merged u later).mono (List.Subset.refl _) (List.subset_cons_self _ _)
  | case5 s ss t ts notLess notGreater ih =>
    intro us made u inside
    rw [mergeTerms, if_neg notLess, if_neg notGreater] at made
    obtain ⟨rs, monomials, rest⟩ := Result.bind_eq_ok.mp made
    obtain ⟨others, merged, done⟩ := Result.bind_eq_ok.mp rest
    cases done
    have later (member : u ∈ others) : MergeOrigin (s :: ss) (t :: ts) u :=
      (ih merged u member).mono (List.subset_cons_self _ _) (List.subset_cons_self _ _)
    split at inside
    · -- The monomials of both cancel, and their term is left out.
      exact later inside
    · rename_i nonempty
      rcases List.mem_cons.mp inside with rfl | member
      · have same : t.element = s.element := by omega
        exact .both List.mem_cons_self List.mem_cons_self rfl same (by simpa using nonempty) monomials
      · exact later member

variable {ss ts us : List Term}

/-- Every merged term lies on the blade of one of the given terms. -/
theorem element_mergeTerms (made : mergeTerms ss ts = .ok us) :
    ∀ u ∈ us, ∃ t ∈ ss ++ ts, t.element = u.element := by
  intro u inside
  cases mem_mergeTerms ss ts made u inside with
  | left old => exact ⟨u, List.mem_append_left _ old, rfl⟩
  | right old => exact ⟨u, List.mem_append_right _ old, rfl⟩
  | both first _ same => exact ⟨_, List.mem_append_left _ first, same⟩

/-- A term on a lower blade than those that are merged stands before what they merge to. -/
theorem ordered_cons_mergeTerms {s : Term} (made : mergeTerms ss ts = .ok us)
    (left : ∀ t ∈ ss, s.element < t.element) (right : ∀ t ∈ ts, s.element < t.element)
    (ordered : (us.map (·.element)).Pairwise (· < ·)) :
    ((s :: us).map (·.element)).Pairwise (· < ·) := by
  refine List.pairwise_cons.mpr ⟨fun element inside => ?_, ordered⟩
  obtain ⟨u, member, rfl⟩ := List.mem_map.mp inside
  obtain ⟨t, given, same⟩ := element_mergeTerms made u member
  rw [← same]
  exact (List.mem_append.mp given).elim (left t) (right t)

/-- The first of terms on increasing blades lies below all others. -/
theorem element_lt_of_head {t : Term} {ts : List Term}
    (ordered : ((t :: ts).map (·.element)).Pairwise (· < ·)) : ∀ u ∈ ts, t.element < u.element :=
  fun _ inside => (List.pairwise_cons.mp ordered).1 _ (List.mem_map_of_mem inside)

/-- Terms on increasing blades lie above a blade that the first of them lies above. -/
theorem element_lt_of_ordered {element : Nat} {t : Term} {ts : List Term}
    (ordered : ((t :: ts).map (·.element)).Pairwise (· < ·)) (less : element < t.element) :
    ∀ u ∈ t :: ts, element < u.element :=
  List.forall_mem_cons.mpr ⟨less, fun u later => less.trans (element_lt_of_head ordered u later)⟩

/-- Terms on increasing blades merge into terms on increasing blades. -/
theorem ordered_mergeTerms (ss ts : List Term) : ∀ {us : List Term},
    (ss.map (·.element)).Pairwise (· < ·) → (ts.map (·.element)).Pairwise (· < ·) →
      mergeTerms ss ts = .ok us → (us.map (·.element)).Pairwise (· < ·) := by
  -- A first term stands below the rest of its list, so it is enough to compare the first terms.
  induction ss, ts using mergeTerms.induct with
  | case1 ts =>
    intro us _ right made
    rw [mergeTerms] at made
    cases made
    exact right
  | case2 ss nonempty =>
    intro us left _ made
    rw [mergeTerms] at made
    · cases made
      exact left
    · exact nonempty
  | case3 s ss t ts less ih =>
    intro us left right made
    rw [mergeTerms, if_pos less] at made
    obtain ⟨others, merged, done⟩ := Result.bind_eq_ok.mp made
    cases done
    exact ordered_cons_mergeTerms merged (element_lt_of_head left) (element_lt_of_ordered right less)
      (ih left.of_cons right merged)
  | case4 s ss t ts notLess less ih =>
    intro us left right made
    rw [mergeTerms, if_neg notLess, if_pos less] at made
    obtain ⟨others, merged, done⟩ := Result.bind_eq_ok.mp made
    cases done
    exact ordered_cons_mergeTerms merged (element_lt_of_ordered left less) (element_lt_of_head right)
      (ih left right.of_cons merged)
  | case5 s ss t ts notLess notGreater ih =>
    intro us left right made
    rw [mergeTerms, if_neg notLess, if_neg notGreater] at made
    obtain ⟨rs, monomials, rest⟩ := Result.bind_eq_ok.mp made
    obtain ⟨others, merged, done⟩ := Result.bind_eq_ok.mp rest
    cases done
    -- Both first terms lie on one blade, and the rest of either list above it.
    have ordered := ih left.of_cons right.of_cons merged
    have same : s.element = t.element := by omega
    split
    · exact ordered
    · exact @ordered_cons_mergeTerms ss ts others ⟨s.element, rs⟩ merged (element_lt_of_head left)
        (fun u inside => same.trans_lt (element_lt_of_head right u inside)) ordered

/-- A sum merges the terms of plain multivectors. -/
theorem add_eq_ok {a b c : Multivector} (made : a.add b = .ok c) :
    ∃ us, mergeTerms a.terms b.terms = .ok us ∧ c = { terms := us } := by
  obtain ⟨u, -, rest⟩ := Result.bind_eq_ok.mp made
  obtain ⟨v, -, rest⟩ := Result.bind_eq_ok.mp rest
  obtain ⟨us, merged, done⟩ := Result.bind_eq_ok.mp rest
  cases done
  exact ⟨us, merged, rfl⟩

/-- The sum of canonical multivectors is canonical. -/
theorem canonical_add {a b c : Multivector} (left : a.Canonical) (right : b.Canonical)
    (made : a.add b = .ok c) : c.Canonical := by
  obtain ⟨us, merged, rfl⟩ := add_eq_ok made
  refine ⟨fun u inside => ?_, ordered_mergeTerms a.terms b.terms left.ordered right.ordered merged⟩
  -- A term of one addend is as it was, and a merged one is canonical by the merge of monomials.
  cases mem_mergeTerms a.terms b.terms merged u inside with
  | left old => exact left.terms u old
  | right old => exact right.terms u old
  | both first second _ _ nonempty sum =>
    have monomials := merged_mergeMonomials _ _ (left.terms _ first).monomials_ordered
      (right.terms _ second).monomials_ordered sum
    exact ⟨nonempty, monomials.ordered.canonical, monomials.ordered.before⟩

/-- The monomials of a sum have powers of the addends. -/
theorem powers_add {a b c : Multivector} (made : a.add b = .ok c) :
    ∀ e ∈ c.entries, ∃ f ∈ a.entries ++ b.entries, f.monomial.powers = e.monomial.powers := by
  obtain ⟨us, merged, rfl⟩ := add_eq_ok made
  intro e inside
  obtain ⟨u, member, entry⟩ := List.mem_flatMap.mp inside
  obtain ⟨m, monomial, rfl⟩ := List.mem_map.mp entry
  have given {d : Multivector} {t : Term} (old : t ∈ d.terms) {n : Monomial}
      (row : n ∈ t.monomials) : (⟨t.element, n⟩ : Entry) ∈ d.entries :=
    List.mem_flatMap.mpr ⟨t, old, List.mem_map_of_mem row⟩
  cases mem_mergeTerms a.terms b.terms merged u member with
  | left old => exact ⟨_, List.mem_append_left _ (given old monomial), rfl⟩
  | right old => exact ⟨_, List.mem_append_right _ (given old monomial), rfl⟩
  | both first second _ _ _ sum =>
    -- On a blade of both addends, each monomial has the powers of one on either side.
    obtain ⟨n, source, powers⟩ := source_mergeMonomials _ _ sum m monomial
    rcases List.mem_append.mp source with row | row
    · exact ⟨_, List.mem_append_left _ (given first row), powers⟩
    · exact ⟨_, List.mem_append_right _ (given second row), powers⟩

end Multivector

end Clifford
