import Clifford.Proofs.Metric.Pair
import Clifford.Proofs.Multivector.LinearMerge
import Clifford.Proofs.Multivector.PartProduct
import Clifford.Proofs.Multivector.Regressive

/-! The dual as a signed bijection: it moves every term to the complementary blade and turns the order
of the terms round, without any arithmetic, so that no coefficient is rounded and no term is lost. -/

namespace Clifford

open Blade

/-- The exterior product of disjoint blades of any width has the sign of their crossings, whatever the
metric is. -/
theorem BladeProduct.compute_exterior (m : Metric) {n a b : Nat} (bounded : a < 2 ^ n)
    (disjoint : a &&& b = 0) :
    BladeProduct.exterior.compute m a b = (a ^^^ b, paritySign (crossings n a b)) := by
  have walk := signed_exteriorWalk (fun _ => 1) a b 0 bounded disjoint
  rw [twist, sharedSquares_disjoint _ _ disjoint] at walk
  simp only [compute, disjoint, ne_eq, not_true_eq_false, if_false, walk, weighted]
  simp [swapSign, paritySign_ne_zero]

namespace Blade

variable {n a b : Nat}

/-- A blade of the space and what it lacks add up to the blade of all vectors. -/
theorem add_lacking (bounded : a < 2 ^ n) : a + lacking n a = 2 ^ n - 1 := by
  -- Without a carry, the difference from all ones flips every bit below the dimension.
  have flipped : lacking n a = 2 ^ n - (a + 1) := by
    refine Nat.eq_of_testBit_eq fun i => ?_
    rw [testBit_lacking, Nat.testBit_two_pow_sub_succ bounded]
    by_cases below : i < n
    · simp [below]
    · simp [below, Nat.testBit_eq_false_of_lt
        (bounded.trans_le (Nat.pow_le_pow_right (by decide) (not_lt.mp below)))]
  omega

/-- A higher blade lacks a lower one. -/
theorem lacking_lt_lacking (right : b < 2 ^ n) (less : a < b) : lacking n b < lacking n a := by
  -- Both pairs add up to the same number.
  have first := add_lacking (less.trans right)
  have second := add_lacking right
  omega

/-- A blade and its complement wedge to the blade of all vectors with the sign of the complement. -/
theorem complement_wedge (bounded : a < 2 ^ n) : ∃ f sign, complement a n = (f, sign) ∧
    (a &&& f = 0 ∧ a ^^^ f = 2 ^ n - 1) ∧ (sign = 1 ∨ sign = -1) ∧
    ∀ m : Metric, BladeProduct.exterior.compute m a f = (2 ^ n - 1, sign) := by
  -- The complement is what the blade lacks, with the sign of their crossings.
  have apart := and_lacking bounded
  have all : a ^^^ lacking n a = 2 ^ n - 1 := by rw [xor_lacking, vector_eq]
  have unit := complement_sign a n
  rw [complement_eq bounded] at unit
  refine ⟨lacking n a, _, complement_eq bounded, ⟨apart, all⟩, unit, fun m => ?_⟩
  rw [BladeProduct.compute_exterior m bounded apart, all]

/-- The sign of taking the complement twice is one or minus one. -/
theorem doubleDualSign_cases (n a : Nat) : doubleDualSign n a = 1 ∨ doubleDualSign n a = -1 :=
  swapSign_cases _

end Blade

/-- A term on the complementary blade, with the sign of the complement. -/
def Term.complemented (n : Nat) (t : Term) : Term :=
  ⟨(complement t.element n).1,
    t.monomials.map fun m => ⟨(complement t.element n).2 * m.coefficient, m.powers⟩⟩

namespace Multivector

/-- Every term on its complementary blade, which turns the order of the blades round. -/
def complemented (n : Nat) (a : Multivector) : Multivector :=
  { terms := (a.terms.map (Term.complemented n)).reverse }

/-- A canonical multivector without a deferred function on the blades of `n` vectors. -/
structure InSpace (n : Nat) (a : Multivector) : Prop where
  canonical : a.Canonical
  plain : a.Plain
  bounded : ∀ t ∈ a.terms, t.element < 2 ^ n

variable {n : Nat} {a b : Multivector}

/-- The entries of the complemented terms are the complemented entries in another order. -/
theorem entries_complemented (n : Nat) (a : Multivector) :
    (a.entries.map (dualEntry n)).Perm (a.complemented n).entries := by
  have forward : a.entries.map (dualEntry n) =
      (a.terms.map (Term.complemented n)).flatMap Term.entries := by
    simp only [entries, List.map_flatMap, List.flatMap_map]
    refine List.flatMap_congr fun t _ => ?_
    simp [Term.entries, Term.complemented, dualEntry, Entry.of]
  -- Turning the terms round only permutes the entries.
  rw [forward]
  exact (List.reverse_perm _).symm.flatMap_right _

namespace InSpace

/-- The complemented terms are in canonical order. -/
theorem complemented (inSpace : a.InSpace n) : (a.complemented n).InSpace n := by
  refine ⟨⟨fun u member => ?_, ?_⟩, ⟨rfl, rfl⟩, fun u member => ?_⟩
  · obtain ⟨t, given, rfl⟩ := List.mem_map.mp (List.mem_reverse.mp member)
    have each := inSpace.canonical.terms t given
    refine ⟨by simpa [Term.complemented] using each.nonempty, fun m inside => ?_, ?_⟩
    · obtain ⟨m, monomial, rfl⟩ := List.mem_map.mp inside
      have before := each.monomials m monomial
      have sign : ((complement t.element n).2 : Rat) ≠ 0 := by
        rcases complement_sign t.element n with one | minus <;> simp [*]
      exact ⟨mul_ne_zero sign before.nonzero, before.increasing, before.keyed⟩
    · -- The order of monomials looks at powers alone.
      exact List.pairwise_map.mpr (each.ordered.imp fun before => before.congr rfl rfl)
  · -- Complements decrease as blades increase, and the terms are turned round.
    rw [elements, Multivector.complemented, List.map_reverse, List.pairwise_reverse, List.map_map,
      List.pairwise_map]
    refine (List.pairwise_map.mp inSpace.canonical.ordered).imp_of_mem fun {t u} left right less => ?_
    exact lacking_lt_lacking (inSpace.bounded u right) less
  · obtain ⟨t, given, rfl⟩ := List.mem_map.mp (List.mem_reverse.mp member)
    exact complement_lt (inSpace.bounded t given)

/-- The dual complements every term, with any coefficients. -/
theorem dual_eq_complemented (inSpace : a.InSpace n) : a.dual n = .ok (a.complemented n) := by
  -- Collation sorts the complements into the one order that is canonical.
  rw [dual_eq (requirePlain_eq_ok inSpace.plain.1), collate,
    inSpace.complemented.canonical.collateTerms_of_perm (entries_complemented n a)]
  rfl

/-- Complementing twice multiplies every term by the sign of its grade. -/
theorem complemented_complemented (inSpace : a.InSpace n) :
    (a.complemented n).complemented n = a.rescaled fun e => (doubleDualSign n e : Rat) := by
  rw [Multivector.complemented, Multivector.complemented, List.map_reverse, List.reverse_reverse,
    rescaled, List.map_map]
  congr 1
  refine List.map_congr_left fun t member => ?_
  have bounded := inSpace.bounded t member
  -- What is lacking of what is lacking is the blade itself.
  have back := complement_eq (lacking_lt bounded)
  rw [lacking_lacking] at back
  simp only [Function.comp_apply, Term.complemented, complement_eq bounded, back, List.map_map]
  congr 1
  refine List.map_congr_left fun m _ => ?_
  rw [Function.comp_apply, ← complement_signs bounded]
  push_cast
  ring_nf

/-- Signs on the blades keep a multivector in its space. -/
theorem rescaled {sign : Nat → Int} (unit : ∀ e, sign e = 1 ∨ sign e = -1) (inSpace : a.InSpace n) :
    (a.rescaled fun e => (sign e : Rat)).InSpace n := by
  refine ⟨canonical_rescaled (fun e => ?_) inSpace.canonical, ⟨rfl, rfl⟩, fun u member => ?_⟩
  · rcases unit e with one | minus <;> simp [*]
  · obtain ⟨t, given, rfl⟩ := List.mem_map.mp member
    exact inSpace.bounded t given

/-- Signs on the blades that are applied twice change nothing. -/
theorem rescaled_rescaled {sign : Nat → Int} (unit : ∀ e, sign e = 1 ∨ sign e = -1)
    (inSpace : a.InSpace n) :
    (a.rescaled fun e => (sign e : Rat)).rescaled (fun e => (sign e : Rat)) = a := by
  obtain ⟨terms, op, opScale⟩ := a
  obtain ⟨rfl, rfl⟩ := inSpace.plain
  -- Every sign is its own inverse.
  have square (e : Nat) : (sign e : Rat) * sign e = 1 := by
    rcases unit e with one | minus <;> simp [*]
  simp [Multivector.rescaled, Function.comp_def, mul_assoc, square]

/-- Some of the terms of a multivector lie in its space. -/
theorem filter (inSpace : a.InSpace n) (p : Term → Bool) :
    ({ a with terms := a.terms.filter p } : Multivector).InSpace n where
  canonical := ⟨fun t member => inSpace.canonical.terms t (List.mem_filter.mp member).1,
    inSpace.canonical.ordered.sublist (List.filter_sublist.map _)⟩
  plain := inSpace.plain
  bounded t member := inSpace.bounded t (List.mem_filter.mp member).1

/-- Multivectors with the same complemented terms are the same. -/
theorem complemented_injective (left : a.InSpace n) (right : b.InSpace n)
    (same : a.complemented n = b.complemented n) : a = b := by
  -- Complementing once more leaves signs that can be taken back.
  have twice := congrArg (Multivector.complemented n) same
  rw [left.complemented_complemented, right.complemented_complemented] at twice
  rw [← left.rescaled_rescaled (doubleDualSign_cases n), twice,
    right.rescaled_rescaled (doubleDualSign_cases n)]

end InSpace

/-- The sum over all grades `g` of the parts of a multivector, each multiplied by `(-1)^(g * (n - g))`. -/
def signedGradeSum (n : Nat) (a : Multivector) : Result Multivector :=
  (List.range (n + 1)).foldlM
    (fun sum g => sum.add ((a.part g).rescaled fun _ => (swapSign (g * (n - g)) : Rat))) zero

/-- The terms of the grades below a number. -/
def below (a : Multivector) (count : Nat) : Multivector :=
  { a with terms := a.terms.filter fun t => Blade.grade t.element < count }

/-- The terms below a grade and those of the grade are the terms below the next grade. -/
theorem terms_below_succ (a : Multivector) (count : Nat) :
    ((a.below count).terms ++ (a.part count).terms).Perm (a.below (count + 1)).terms := by
  refine .trans (.of_eq ?_) (List.filter_append_perm
    (fun t : Term => decide (Blade.grade t.element < count)) (a.below (count + 1)).terms)
  simp only [below, part, List.filter_filter]
  congr 1 <;>
  · refine List.filter_congr fun t _ => ?_
    rw [Bool.eq_iff_iff]
    simp only [Bool.and_eq_true, Bool.not_eq_true', decide_eq_true_eq, decide_eq_false_iff_not]
    omega

namespace InSpace

/-- Adding the signed part of a grade to the signed terms below it is exact. -/
theorem below_add_part (inSpace : a.InSpace n) (count : Nat) :
    ((a.below count).rescaled fun e => (doubleDualSign n e : Rat)).add
        ((a.part count).rescaled fun _ => (swapSign (count * (n - count)) : Rat)) =
      .ok ((a.below (count + 1)).rescaled fun e => (doubleDualSign n e : Rat)) := by
  -- All terms of the grade have the sign of that grade.
  have sign : ((a.part count).rescaled fun _ => (swapSign (count * (n - count)) : Rat)) =
      (a.part count).rescaled fun e => (doubleDualSign n e : Rat) := by
    refine rescaled_congr fun t member => ?_
    have same : Blade.grade t.element = count := by simpa using (List.mem_filter.mp member).2
    rw [doubleDualSign, same]
  have lower := (inSpace.filter fun t => Blade.grade t.element < count).rescaled
    (doubleDualSign_cases n)
  have own := (inSpace.filter fun t => Blade.grade t.element = count).rescaled
    (doubleDualSign_cases n)
  have both := (inSpace.filter fun t => Blade.grade t.element < count + 1).rescaled
    (doubleDualSign_cases n)
  -- The entries below the next grade are those of both parts.
  have entries := ((terms_below_succ a count).flatMap_right Term.entries).map fun e : Entry =>
    (⟨e.element, ⟨e.monomial.coefficient * doubleDualSign n e.element, e.monomial.powers⟩⟩ : Entry)
  rw [List.flatMap_append, List.map_append] at entries
  rw [sign]
  refine add_eq_of_perm lower.canonical own.canonical both.canonical lower.plain own.plain both.plain ?_
  rw [entries_rescaled, entries_rescaled, entries_rescaled]
  exact entries

/-- Adding the signed parts of the first grades gives the terms of these grades with their signs. -/
theorem foldlM_parts (inSpace : a.InSpace n) (count : Nat) :
    (List.range count).foldlM
        (fun sum g => sum.add ((a.part g).rescaled fun _ => (swapSign (g * (n - g)) : Rat))) zero =
      .ok ((a.below count).rescaled fun e => (doubleDualSign n e : Rat)) := by
  -- Grade after grade is added to the terms below it.
  induction count with
  | zero => simp [below, Multivector.rescaled, zero, pure, Except.pure]
  | succ count ih =>
    rw [List.range_succ, List.foldlM_append, ih, Result.ok_bind, List.foldlM_cons,
      inSpace.below_add_part]
    rfl

/-- The signed sum of the grade parts multiplies every term by the sign of its grade. -/
theorem signedGradeSum_eq (inSpace : a.InSpace n) :
    a.signedGradeSum n = .ok (a.rescaled fun e => (doubleDualSign n e : Rat)) := by
  -- No blade of the space has a grade above the dimension.
  have every : a.below (n + 1) = a := by
    have all : a.terms.filter (fun t => Blade.grade t.element < n + 1) = a.terms :=
      List.filter_eq_self.mpr fun t member => by
        simpa [Nat.lt_succ_iff] using grade_le (inSpace.bounded t member)
    rw [below, all]
  rw [signedGradeSum, inSpace.foldlM_parts, every]

end InSpace

end Multivector

namespace Algebra

/-- The dual of an algebra is a signed bijection of the canonical multivectors of its space. -/
structure SignedBijection (A : Algebra) : Prop where
  terms : ∀ {a : Multivector}, a.InSpace A.n → A.dual a = .ok (a.complemented A.n)
  twice : ∀ {a : Multivector}, a.InSpace A.n →
    A.doubleDual a = .ok (a.rescaled fun e => (doubleDualSign A.n e : Rat)) ∧
      A.doubleDual a = a.signedGradeSum A.n
  injective : ∀ {a b : Multivector}, a.InSpace A.n → b.InSpace A.n → A.dual a = A.dual b → a = b
  surjective : ∀ {b : Multivector}, b.InSpace A.n → ∃ a, a.InSpace A.n ∧ A.dual a = .ok b

/-- A blade and its complement wedge to the blade of all vectors, in any dimension, with the sign of the
complement; and the dual of an algebra moves every term to its complement with that sign, which is a
bijection and taken twice leaves the sum of the grade parts with the signs of their grades. -/
theorem dual_signedBijection (A : Algebra) :
    (∀ n, ∀ e < 2 ^ n, ∃ f sign, complement e n = (f, sign) ∧
      (e &&& f = 0 ∧ e ^^^ f = 2 ^ n - 1) ∧ (sign = 1 ∨ sign = -1) ∧
      ∀ m : Metric, BladeProduct.exterior.compute m e f = (2 ^ n - 1, sign)) ∧
    A.SignedBijection := by
  refine ⟨fun n e bounded => complement_wedge bounded, fun inSpace => inSpace.dual_eq_complemented,
    fun {a} inSpace => ?_, fun {a b} left right same => ?_, fun {b} inSpace => ?_⟩
  · -- The second dual is that of a multivector of the space again.
    have twice : A.doubleDual a = .ok (a.rescaled fun e => (doubleDualSign A.n e : Rat)) := by
      rw [doubleDual, dual, inSpace.dual_eq_complemented, Result.ok_bind, dual,
        inSpace.complemented.dual_eq_complemented, inSpace.complemented_complemented]
    exact ⟨twice, twice.trans inSpace.signedGradeSum_eq.symm⟩
  · rw [dual, dual, left.dual_eq_complemented, right.dual_eq_complemented] at same
    exact left.complemented_injective right (Except.ok.inj same)
  · -- What goes to a multivector is its own complement with the signs of the grades.
    have signed := inSpace.rescaled (doubleDualSign_cases A.n)
    refine ⟨_, signed.complemented, ?_⟩
    rw [dual, signed.complemented.dual_eq_complemented, signed.complemented_complemented,
      inSpace.rescaled_rescaled (doubleDualSign_cases A.n)]

/-- In a conformal algebra of four vectors `5/3001 * x * e₁ + 2 * e₂ ∧ e_o - e₁ ∧ e₂ ∧ e_inf` has the dual
`e_o + 2 * e₁ ∧ e_inf + 5/3001 * x * e₂ ∧ e_o ∧ e_inf`, whose own dual changes the signs of the odd terms. -/
theorem dual_signedBijection_conformal :
    let A : Algebra := { metric := .null ⟨3, 1, 0, by decide⟩ (by decide) (by decide) }
    let a : Multivector := {
      terms := [⟨1, [⟨5 / 3001, [⟨0, 1⟩]⟩]⟩, ⟨6, [⟨2, []⟩]⟩, ⟨11, [⟨-1, []⟩]⟩] }
    (a.InSpace A.n ∧ 6 < 2 ^ 4) ∧
      (∃ f sign, complement 6 4 = (f, sign) ∧ (6 &&& f = 0 ∧ 6 ^^^ f = 15) ∧
        (sign = 1 ∨ sign = -1) ∧
        ∀ m : Metric, BladeProduct.exterior.compute m 6 f = (15, sign)) ∧
      A.dual a = .ok {
        terms := [⟨4, [⟨1, []⟩]⟩, ⟨9, [⟨2, []⟩]⟩, ⟨14, [⟨5 / 3001, [⟨0, 1⟩]⟩]⟩] } ∧
      A.doubleDual a = .ok {
        terms := [⟨1, [⟨-5 / 3001, [⟨0, 1⟩]⟩]⟩, ⟨6, [⟨2, []⟩]⟩, ⟨11, [⟨1, []⟩]⟩] } := by
  intro A a
  have inSpace : a.InSpace A.n :=
    ⟨by decide +kernel, ⟨rfl, rfl⟩, by decide⟩
  have laws := dual_signedBijection A
  -- The terms of both duals are computed from the laws.
  refine ⟨⟨inSpace, by decide⟩, laws.1 4 6 (by decide), ?_, ?_⟩
  · rw [laws.2.terms inSpace]
    decide +kernel
  · rw [(laws.2.twice inSpace).1]
    decide +kernel

end Algebra

end Clifford
