import Clifford.Proofs.Code.Order
import Clifford.Proofs.Rational.Exact

/-! Like operands: merging the operands of a sum leaves each stem once, with the total of the multipliers
it came with, so that the result is determined by these totals. -/

namespace Clifford.Code

open Std

/-- Code whose multipliers are integers. -/
def IntegerScales (codes : List Code) : Prop := ∀ c ∈ codes, c.scale.den = 1

/-- The total of the multipliers of code with a stem. -/
def likeScale (codes : List Code) (stem : Code) : Rat :=
  ((codes.filter fun c => c.stem = stem).map scale).sum

/-- The operands of a sum: none of them vanishes, no two are alike, and they are sorted. -/
structure SumOperands (codes : List Code) : Prop where
  nonzero : ∀ c ∈ codes, c.scale ≠ 0
  distinct : codes.Pairwise fun a b => a.stem ≠ b.stem
  sorted : codes.Pairwise fun a b => (compare a b).isLE

variable {code : Code} {codes codes' merged merged' : List Code}

@[simp] theorem stem_withScale (code : Code) (q : Rat) : (code.withScale q).stem = code.stem := by
  cases code
  rfl

@[simp] theorem scale_withScale (code : Code) (q : Rat) : (code.withScale q).scale = q := by
  cases code
  rfl

/-- Code is its stem with its multiplier. -/
theorem stem_withScale_scale (code : Code) : code.stem.withScale code.scale = code := by
  cases code
  rfl

@[simp] theorem likeScale_nil (stem : Code) : likeScale [] stem = 0 := rfl

@[simp] theorem likeScale_cons (code : Code) (codes : List Code) (stem : Code) :
    likeScale (code :: codes) stem =
      (if code.stem = stem then code.scale else 0) + likeScale codes stem := by
  rw [likeScale, likeScale, List.filter_cons]
  split <;> simp_all

/-- A stem that nothing has carries no multiplier. -/
theorem likeScale_eq_zero {stem : Code} (absent : ∀ c ∈ codes, c.stem ≠ stem) :
    likeScale codes stem = 0 := by
  -- Nothing is left to add up.
  rw [likeScale, List.filter_eq_nil_iff.mpr (by simpa using absent)]
  rfl

/-- Where no two are alike, each carries the total of its stem. -/
theorem likeScale_of_mem (distinct : codes.Pairwise fun a b => a.stem ≠ b.stem)
    (inside : code ∈ codes) : likeScale codes code.stem = code.scale := by
  -- Whatever comes before or behind the code has another stem and counts nothing.
  induction codes with
  | nil => simp at inside
  | cons c rest ih =>
    obtain ⟨differ, others⟩ := List.pairwise_cons.mp distinct
    rw [likeScale_cons]
    rcases List.mem_cons.mp inside with rfl | later
    · -- It is the first one, and no other has its stem.
      rw [if_pos rfl, likeScale_eq_zero fun d member => (differ d member).symm, add_zero]
    · rw [if_neg (differ code later), ih others later, zero_add]

/-- Merging in code leaves the stems, or adds that of the code behind them. -/
theorem stems_insertLike : ∀ {merged}, insertLike code codes = .ok merged →
    merged.map stem =
      if code.stem ∈ codes.map stem then codes.map stem else codes.map stem ++ [code.stem] := by
  -- Where the first one is like the code, it keeps its stem and its place.
  induction codes with
  | nil =>
    intro merged made
    cases made
    rfl
  | cons c rest ih =>
    intro merged made
    rw [insertLike] at made
    split at made
    · rename_i like
      obtain ⟨total, -, done⟩ := Result.bind_eq_ok.mp made
      cases done
      simp [like]
    · rename_i differ
      obtain ⟨others, inserted, done⟩ := Result.bind_eq_ok.mp made
      cases done
      have other : ¬ code.stem = c.stem := Ne.symm differ
      rw [List.map_cons, ih inserted, List.map_cons]
      simp only [List.mem_cons, other, false_or]
      split <;> rfl

/-- No two are alike after merging in code, if no two were before. -/
theorem distinct_insertLike (distinct : (codes.map stem).Nodup)
    (made : insertLike code codes = .ok merged) : (merged.map stem).Nodup := by
  rw [stems_insertLike made]
  -- A stem is only added where it was absent.
  split
  · exact distinct
  · rename_i absent
    exact List.nodup_append.mpr ⟨distinct, List.nodup_singleton _, by
      rintro a inside b single rfl
      obtain rfl := List.mem_singleton.mp single
      exact absent inside⟩

/-- Merging in code with an integer adds its multiplier to the total of its stem. -/
theorem exists_insertLike (integer : code.scale.den = 1) (integers : IntegerScales codes) :
    ∃ merged, insertLike code codes = .ok merged ∧ IntegerScales merged ∧
      ∀ stem, likeScale merged stem = likeScale codes stem + likeScale [code] stem := by
  have whole := Dyadic.zero_iff.mpr integer
  -- The one addition that is made is that of two integers, which the gate lets through.
  induction codes with
  | nil => exact ⟨[code], rfl, by simpa [IntegerScales] using integer, fun stem => by simp⟩
  | cons c rest ih =>
    obtain ⟨first, others⟩ := List.forall_mem_cons.mp integers
    rw [insertLike]
    split
    · -- The first one is like the code and takes its multiplier up.
      rename_i like
      have sum := gatedAdd_eq_ok (Dyadic.zero_iff.mpr first) whole (by decide)
      refine ⟨c.withScale (c.scale + code.scale) :: rest, by rw [sum]; rfl,
        List.forall_mem_cons.mpr ⟨?_, others⟩, fun stem => ?_⟩
      · rw [scale_withScale]
        exact Dyadic.zero_iff.mp ((Dyadic.zero_iff.mpr first).add whole)
      · simp only [likeScale_cons, likeScale_nil, stem_withScale, scale_withScale, like]
        split <;> ring
    · -- The first one stays, and counts the same before and after.
      obtain ⟨merged, inserted, integers', total⟩ := ih others
      refine ⟨c :: merged, by rw [inserted]; rfl, List.forall_mem_cons.mpr ⟨first, integers'⟩,
        fun stem => ?_⟩
      rw [likeScale_cons, likeScale_cons, total, add_assoc]

/-- Merging in several keeps the totals of all of them. -/
theorem exists_foldlM_insertLike (codes : List Code) : ∀ {before : List Code},
    IntegerScales before → IntegerScales codes →
      ∃ merged, codes.foldlM (fun merged code => insertLike code merged) before = .ok merged ∧
        IntegerScales merged ∧
        ∀ stem, likeScale merged stem = likeScale before stem + likeScale codes stem := by
  -- The totals of what has been merged and of what is still to come make up the same sum at each step.
  induction codes with
  | nil => exact fun {before} known _ => ⟨before, rfl, known, fun stem => by simp⟩
  | cons code rest ih =>
    intro before known integers
    obtain ⟨first, others⟩ := List.forall_mem_cons.mp integers
    obtain ⟨next, inserted, integers', step⟩ := exists_insertLike first known
    obtain ⟨merged, later, whole, total⟩ := ih integers' others
    refine ⟨merged, by rw [List.foldlM_cons, inserted]; exact later, whole, fun stem => ?_⟩
    rw [total, step, likeScale_cons, likeScale_cons, likeScale_nil]
    ring

/-- No two are alike after merging in several. -/
theorem distinct_foldlM_insertLike (codes : List Code) : ∀ {before merged : List Code},
    (before.map stem).Nodup →
      codes.foldlM (fun merged code => insertLike code merged) before = .ok merged →
        (merged.map stem).Nodup := by
  -- What is merged is kept distinct by every step.
  induction codes with
  | nil =>
    intro before merged distinct folded
    cases folded
    exact distinct
  | cons code rest ih =>
    intro before merged distinct folded
    rw [List.foldlM_cons] at folded
    obtain ⟨next, inserted, later⟩ := Result.bind_eq_ok.mp folded
    exact ih (distinct_insertLike distinct inserted) later

/-- Merged operands do not vanish, are not alike, and are sorted. -/
theorem sumOperands_mergeLike (made : mergeLike codes = .ok merged) : SumOperands merged := by
  obtain ⟨collected, folded, done⟩ := Result.bind_eq_ok.mp made
  cases done
  have distinct := distinct_foldlM_insertLike codes (by simp) folded
  -- What vanishes is left out at the end, and sorting does not make anything alike.
  refine ⟨fun c inside => ?_, ?_, pairwise_mergeSort_isLE compare _⟩
  · simpa using (List.mem_filter.mp (List.mem_mergeSort.mp inside)).2
  · have kept := (List.pairwise_map.mp distinct).filter fun c => c.scale ≠ 0
    exact ((List.mergeSort_perm _ _).pairwise_iff fun {a b} differ => differ.symm).mpr kept

/-- Code whose multiplier is the total of its stem, and not zero, is among the operands of a sum. -/
theorem SumOperands.mem_of_likeScale (operands : SumOperands codes) (nonzero : code.scale ≠ 0)
    (total : likeScale codes code.stem = code.scale) : code ∈ codes := by
  -- Some operand has the stem, since its total is not zero, and only the total can be its multiplier.
  obtain ⟨d, found, like⟩ : ∃ d ∈ codes, d.stem = code.stem := by
    by_contra absent
    exact nonzero (total.symm.trans (likeScale_eq_zero fun d member like => absent ⟨d, member, like⟩))
  have scale := likeScale_of_mem operands.distinct found
  rw [like, total] at scale
  rwa [← stem_withScale_scale code, ← like, scale, stem_withScale_scale]

/-- Operands of sums with the same totals are the same. -/
theorem SumOperands.eq_of_likeScale (left : SumOperands codes) (right : SumOperands codes')
    (wellFormed : ∀ c ∈ codes, c.WellFormed) (wellFormed' : ∀ c ∈ codes', c.WellFormed)
    (same : ∀ stem, likeScale codes stem = likeScale codes' stem) : codes = codes' := by
  -- An operand is told from the totals: it has a stem whose total is not zero.
  have member {xs ys : List Code} (left : SumOperands xs) (right : SumOperands ys)
      (same : ∀ stem, likeScale xs stem = likeScale ys stem) : ∀ c ∈ xs, c ∈ ys := fun c inside =>
    right.mem_of_likeScale (left.nonzero c inside)
      ((same c.stem).symm.trans (likeScale_of_mem left.distinct inside))
  have nodup {xs : List Code} (operands : SumOperands xs) : xs.Nodup :=
    operands.distinct.imp fun {a b} differ equal => differ (congrArg stem equal)
  have perm : codes.Perm codes' := (List.perm_ext_iff_of_nodup (nodup left) (nodup right)).mpr
    fun c => ⟨member left right same c, member right left (fun stem => (same stem).symm) c⟩
  -- Both lists are sorted, so it remains that entries which the order does not separate are equal.
  refine List.Perm.eq_of_pairwise (fun a b inside inside' below above => ?_) left.sorted
    right.sorted perm
  -- Operands with the same place are alike, and so have the same total.
  have like := (compare_eq_eq (wellFormed a inside) (wellFormed' b inside')).mp
    (OrientedCmp.isLE_antisymm below above)
  rw [← stem_withScale_scale a, ← stem_withScale_scale b, ← likeScale_of_mem left.distinct inside,
    ← likeScale_of_mem left.distinct (perm.mem_iff.mpr inside'), like]

/-- The operands of a sum stand in strict order. -/
theorem SumOperands.strict (operands : SumOperands codes) (wellFormed : ∀ c ∈ codes, c.WellFormed) :
    codes.Pairwise fun a b => compare a b = .lt := by
  -- Only code that is alike has the same place in the order.
  refine (operands.distinct.and operands.sorted).imp_of_mem fun {a b} first second both => ?_
  have differ : compare a b ≠ .eq := fun equal =>
    both.1 ((compare_eq_eq (wellFormed a first) (wellFormed b second)).mp equal)
  have le := both.2
  cases order : compare a b <;> simp_all

/-- Operands with integers as their multipliers are merged, and what they merge to has their totals. -/
theorem exists_mergeLike (integers : IntegerScales codes) :
    ∃ merged, mergeLike codes = .ok merged ∧ IntegerScales merged ∧
      ∀ stem, likeScale merged stem = likeScale codes stem := by
  -- The collection starts empty, where every total is zero.
  obtain ⟨collected, folded, whole, total⟩ := @exists_foldlM_insertLike codes []
    (by simp [IntegerScales]) integers
  refine ⟨_, by rw [mergeLike, folded]; rfl, fun c inside => ?_, fun stem => ?_⟩
  -- The operands are among those that were collected, whose multipliers are integers.
  · exact whole c (List.mem_of_mem_filter (List.mem_mergeSort.mp inside))
  -- What vanishes does not count, and sorting does not change the total.
  have dropped (codes : List Code) :
      likeScale (codes.filter fun c => c.scale ≠ 0) stem = likeScale codes stem := by
    induction codes with
    | nil => rfl
    | cons c rest ih => by_cases zero : c.scale = 0 <;> simp_all
  have sorted (codes : List Code) :
      likeScale (codes.mergeSort fun a b => (compare a b).isLE) stem = likeScale codes stem :=
    (((List.mergeSort_perm codes _).filter _).map _).sum_eq
  rw [sorted, dropped, total, likeScale_nil, zero_add]

end Clifford.Code
