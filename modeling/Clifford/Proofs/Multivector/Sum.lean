import Clifford.Proofs.Multivector.Merge
import Clifford.Proofs.Multivector.Product

/-! Sums of multivectors: merging terms whose coefficients add exactly keeps the sum of their values. -/

namespace Clifford

open Std Finsupp

/-- Canonical monomials with coefficients of small denominators. -/
def DyadicMonomials (k : Nat) (ms : List Monomial) : Prop :=
  ∀ m ∈ ms, m.Canonical ∧ Dyadic k m.coefficient

namespace DyadicMonomials

variable {k : Nat} {a b : Monomial} {ms rs : List Monomial}

/-- Every later monomial is one of all of them. -/
theorem tail (dyadic : DyadicMonomials k (a :: ms)) : DyadicMonomials k ms :=
  fun m inside => dyadic m (List.mem_cons_of_mem _ inside)

/-- The sum of two monomials with the same powers joins others, unless it vanishes. -/
theorem both (left : a.Canonical ∧ Dyadic k a.coefficient)
    (right : b.Canonical ∧ Dyadic k b.coefficient) (others : DyadicMonomials k rs) :
    DyadicMonomials k (if a.coefficient + b.coefficient = 0 then rs
      else ⟨a.coefficient + b.coefficient, a.powers⟩ :: rs) := by
  split
  · exact others
  · rename_i nonzero
    exact List.forall_mem_cons.mpr
      ⟨⟨⟨nonzero, left.1.increasing, left.1.keyed⟩, left.2.add right.2⟩, others⟩

end DyadicMonomials

section Value

variable {M : Type} [AddCommGroup M] [Module Rat M]

/-- The first monomial adds its value to the sum of those that follow it. -/
theorem Reading.sum_cons (r : Reading M) (m : Monomial) (ms : List Monomial) :
    r.sum (m :: ms) = m.coefficient • r.value m.powers + r.sum ms := by
  simp [Reading.sum]

/-- Two monomials with the same powers have the value of their sum, and none if it vanishes. -/
theorem Reading.sum_both (r : Reading M) (a b : Monomial) (same : a.powers = b.powers)
    (rs : List Monomial) :
    r.sum (if a.coefficient + b.coefficient = 0 then rs
      else ⟨a.coefficient + b.coefficient, a.powers⟩ :: rs) =
      a.coefficient • r.value a.powers + b.coefficient • r.value b.powers + r.sum rs := by
  rw [← same, ← add_smul]
  split
  · rename_i zero
    rw [zero, zero_smul, zero_add]
  · rw [Reading.sum_cons]

end Value

namespace Multivector

/-- Merging monomials in order gives their sum. -/
theorem exists_mergeMonomials {k : Nat} (small : k ≤ exactBits) (ms ns : List Monomial) :
    DyadicMonomials k ms → DyadicMonomials k ns →
    ∃ rs, mergeMonomials ms ns = .ok rs ∧ DyadicMonomials k rs ∧
      ∀ {M : Type} [AddCommGroup M] [Module Rat M] (r : Reading M),
        r.sum rs = r.sum ms + r.sum ns := by
  induction ms, ns using mergeMonomials.induct with
  | case1 ns =>
    exact fun _ right => ⟨ns, by rw [mergeMonomials], right, fun r => by simp [Reading.sum]⟩
  | case2 ms nonempty =>
    exact fun left _ =>
      ⟨ms, by rw [mergeMonomials]; exact nonempty, left, fun r => by simp [Reading.sum]⟩
  -- Each step of the merge takes one of the first monomials, or the sum of both.
  | case3 a as b bs ihLeft ihRight ihBoth =>
    intro left right
    have first := left a (by simp)
    have second := right b (by simp)
    obtain ⟨k, keyed⟩ := first.1.keyed
    obtain ⟨l, keyed'⟩ := second.1.keyed
    rw [mergeMonomials, keyed, Result.ok_bind, keyed', Result.ok_bind]
    dsimp only
    split
    · -- The lower one goes first, and its value is added to that of the rest.
      obtain ⟨rest, merged, dyadic, sum⟩ := ihLeft left.tail right
      refine ⟨a :: rest, by rw [merged]; rfl, List.forall_mem_cons.mpr ⟨first, dyadic⟩, fun r => ?_⟩
      rw [r.sum_cons, r.sum_cons, sum r, add_assoc]
    · -- Likewise from the other list.
      obtain ⟨rest, merged, dyadic, sum⟩ := ihRight left right.tail
      refine ⟨b :: rest, by rw [merged]; rfl, List.forall_mem_cons.mpr ⟨second, dyadic⟩, fun r => ?_⟩
      rw [r.sum_cons, r.sum_cons b, sum r, add_left_comm]
    · -- Both have the same powers, so their coefficients are added, which is exact.
      rename_i equal
      obtain rfl := LawfulEqCmp.eq_of_compare equal
      have same : a.powers = b.powers := by
        rw [← MonomialKey.powers_of_ok keyed, ← MonomialKey.powers_of_ok keyed']
      obtain ⟨rest, merged, dyadic, sum⟩ := ihBoth left.tail right.tail
      rw [gatedAdd_eq_ok first.2 second.2 small, Result.ok_bind, merged]
      refine ⟨_, rfl, .both first second dyadic, fun r => ?_⟩
      rw [r.sum_both a b same, r.sum_cons, r.sum_cons, sum r, add_add_add_comm]

/-- Terms whose first one merges two terms on a blade have the total of both in its place. -/
theorem total_both {M : Type} [AddCommGroup M] [Module Rat M] (r : Reading M) {s t : Term}
    {rs : List Monomial} (same : s.element = t.element)
    (both : r.sum rs = r.sum s.monomials + r.sum t.monomials) (us : List Term) :
    weightedSum r.weight ((if rs.isEmpty then us else ⟨s.element, rs⟩ :: us).flatMap Term.entries) =
      weightedSum r.weight s.entries + weightedSum r.weight t.entries +
        weightedSum r.weight (us.flatMap Term.entries) := by
  have total : weightedSum r.weight s.entries + weightedSum r.weight t.entries =
      single s.element (r.sum rs) := by
    have leftTotal := r.weightedSum_term s.element s.monomials
    have rightTotal := r.weightedSum_term t.element t.monomials
    rw [leftTotal, rightTotal, both, ← same, single_add]
  rw [total]
  split
  · -- No monomials are left, so that both totals cancel.
    rename_i empty
    obtain rfl := List.isEmpty_iff.mp empty
    simp [Reading.sum]
  · have whole := r.weightedSum_term s.element rs
    rw [List.flatMap_cons, weightedSum_append, whole]

/-- Merging terms in order gives their sum. -/
theorem exists_mergeTerms {k : Nat} (small : k ≤ exactBits) (ss ts : List Term) :
    (∀ s ∈ ss, DyadicMonomials k s.monomials) → (∀ t ∈ ts, DyadicMonomials k t.monomials) →
    ∃ us, mergeTerms ss ts = .ok us ∧ (∀ u ∈ us, DyadicMonomials k u.monomials) ∧
      ∀ {M : Type} [AddCommGroup M] [Module Rat M] (r : Reading M),
        weightedSum r.weight (us.flatMap Term.entries) =
          weightedSum r.weight (ss.flatMap Term.entries) +
            weightedSum r.weight (ts.flatMap Term.entries) := by
  -- Where the blades differ, the lower term is passed on, and its total is added to that of the rest.
  induction ss, ts using mergeTerms.induct with
  | case1 ts => exact fun _ right => ⟨ts, by rw [mergeTerms], right, fun r => by simp⟩
  | case2 ss nonempty =>
    exact fun left _ => ⟨ss, by rw [mergeTerms]; exact nonempty, left, fun r => by simp⟩
  | case3 s ss t ts less ih =>
    intro left right
    obtain ⟨first, others⟩ := List.forall_mem_cons.mp left
    obtain ⟨us, merged, dyadic, sum⟩ := ih others right
    refine ⟨s :: us, by rw [mergeTerms, if_pos less, merged]; rfl,
      List.forall_mem_cons.mpr ⟨first, dyadic⟩, fun r => ?_⟩
    rw [List.flatMap_cons, List.flatMap_cons, weightedSum_append, weightedSum_append, sum r,
      add_assoc]
  | case4 s ss t ts notLess less ih =>
    intro left right
    obtain ⟨first, others⟩ := List.forall_mem_cons.mp right
    obtain ⟨us, merged, dyadic, sum⟩ := ih left others
    refine ⟨t :: us, by rw [mergeTerms, if_neg notLess, if_pos less, merged]; rfl,
      List.forall_mem_cons.mpr ⟨first, dyadic⟩, fun r => ?_⟩
    rw [List.flatMap_cons, weightedSum_append, sum r, add_left_comm, ← weightedSum_append,
      ← List.flatMap_cons]
  | case5 s ss t ts notLess notGreater ih =>
    intro left right
    obtain ⟨first, others⟩ := List.forall_mem_cons.mp left
    obtain ⟨second, others'⟩ := List.forall_mem_cons.mp right
    -- The first terms lie on the same blade, and their monomials are merged.
    have same : s.element = t.element := by omega
    obtain ⟨rs, monomials, new, both⟩ := exists_mergeMonomials small s.monomials t.monomials first
      second
    obtain ⟨us, merged, dyadic, sum⟩ := ih others others'
    refine ⟨if rs.isEmpty then us else ⟨s.element, rs⟩ :: us, ?_, ?_, fun r => ?_⟩
    · rw [mergeTerms, if_neg notLess, if_neg notGreater, monomials, Result.ok_bind, merged]
      rfl
    · split
      · exact dyadic
      · exact List.forall_mem_cons.mpr ⟨new, dyadic⟩
    · -- The first terms have the sum of the merged monomials as their total.
      rw [List.flatMap_cons, List.flatMap_cons, weightedSum_append, weightedSum_append,
        add_add_add_comm, ← sum r]
      exact total_both r same (both r) us

/-- The monomials of a multivector of a space are canonical and have small denominators. -/
theorem Over.dyadicMonomials {dim k : Nat} {a : Multivector} (inSpace : a.Over dim k) :
    ∀ t ∈ a.terms, DyadicMonomials k t.monomials := fun t member m inside =>
  ⟨(inSpace.canonical.terms t member).monomials m inside,
    inSpace.dyadic_term member ⟨t.element, m⟩ (List.mem_map_of_mem inside)⟩

/-- Plain multivectors of a space have a sum there, whose value is the sum of their values. -/
theorem exists_add {dim k : Nat} (small : k ≤ exactBits) {a b : Multivector} (left : a.Over dim k)
    (right : b.Over dim k) (plainLeft : a.op = .identity) (plainRight : b.op = .identity) :
    ∃ c, a.add b = .ok c ∧ c.Over dim k ∧ c.Plain ∧
      (∀ e ∈ c.entries, ∃ f ∈ a.entries ++ b.entries, f.monomial.powers = e.monomial.powers) ∧
      ∀ {M : Type} [AddCommGroup M] [Module Rat M] (r : Reading M),
        r.read c = r.read a + r.read b := by
  -- What the merge gives is a multivector of the space: it is canonical, and its denominators are
  -- small.
  obtain ⟨us, merged, dyadic, sum⟩ := exists_mergeTerms small a.terms b.terms left.dyadicMonomials
    right.dyadicMonomials
  have made : a.add b = .ok { terms := us } := by
    rw [add, requirePlain_eq_ok plainLeft, Result.ok_bind, requirePlain_eq_ok plainRight,
      Result.ok_bind, merged]
    rfl
  refine ⟨{ terms := us }, made, ⟨canonical_add left.canonical right.canonical made,
    fun u inside => ?_, fun e inside => ?_⟩, ⟨rfl, rfl⟩,
    powers_add made, sum⟩
  · obtain ⟨t, given, same⟩ := element_mergeTerms merged u inside
    rw [← same]
    exact (List.mem_append.mp given).elim (left.bounded t) (right.bounded t)
  · obtain ⟨u, member, entry⟩ := List.mem_flatMap.mp inside
    obtain ⟨m, monomial, rfl⟩ := List.mem_map.mp entry
    exact (dyadic u member m monomial).2

end Multivector

end Clifford
