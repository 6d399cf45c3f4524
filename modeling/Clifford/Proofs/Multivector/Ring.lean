import Clifford.Algebra
import Clifford.Proofs.Multivector.Laurent
import Clifford.Proofs.Multivector.NullBasis
import Clifford.Proofs.Multivector.Operators

/-! The ring of multivectors: the geometric and the exterior product are associative, distribute over
sums and have one as their unit, as equalities of canonical results. -/

namespace Clifford

open Finsupp

/-- Values on the scalar blade are the same over either basis. -/
theorem Metric.framed_scalar {M : Type} [AddCommGroup M] [Module Rat M] (m : Metric) (x : M) :
    m.framed (single 0 x) = single 0 x := frame_none x (Nat.zero_testBit _) (Nat.zero_testBit _)

namespace Reading

variable {M : Type} [AddCommGroup M] [Module Rat M] (r : Reading M) (m : Metric)

/-- A geometric product by a scalar from the right multiplies the value on every blade. -/
theorem clifford_scalar (blade : Nat) (x y : M) :
    r.clifford .geometric m (single blade x) (single 0 y) = single blade (r.mul x y) := by
  rw [clifford_single (by simp [Metric.touches]), twisted_single,
    (BladeProduct.coefficient_unit (.inl rfl) m.signature blade).2, Nat.xor_zero, Int.cast_one,
    one_smul]

/-- A geometric product by a scalar from the left multiplies the value on every blade. -/
theorem scalar_clifford (blade : Nat) (x y : M) :
    r.clifford .geometric m (single 0 x) (single blade y) = single blade (r.mul x y) := by
  rw [clifford_single (by simp [Metric.touches]), twisted_single,
    (BladeProduct.coefficient_unit (.inl rfl) m.signature blade).1, Nat.zero_xor, Int.cast_one,
    one_smul]

end Reading

/-- Products of Laurent polynomials may be regrouped over any basis where those of blades may. -/
theorem Reading.laurent_clifford_regroup {inner outer inner' outer' : BladeProduct}
    (law : BladeProduct.Regroups inner outer inner' outer') (m : Metric)
    (x y z : Nat →₀ ((Nat →₀ Rat) →₀ Rat)) :
    laurent.clifford outer m (laurent.clifford inner m x y) z =
      laurent.clifford outer' m x (laurent.clifford inner' m y z) := by
  -- Over the orthogonal basis it is a product of blades, and the change of basis undoes itself in
  -- between.
  simp only [clifford_apply, Metric.framed_unframed]
  rw [twisted_regroup laurent_mul_assoc (BladeProduct.coefficient_regroup law m.signature)]

section Laws

variable {kind : BladeProduct} (associative : kind.Associative) (m : Metric)

include associative

/-- Associative products of Laurent polynomials are associative over any basis. -/
theorem Reading.laurent_clifford_assoc (x y z : Nat →₀ ((Nat →₀ Rat) →₀ Rat)) :
    laurent.clifford kind m (laurent.clifford kind m x y) z =
      laurent.clifford kind m x (laurent.clifford kind m y z) :=
  laurent_clifford_regroup associative.regroups m x y z

/-- One is neutral from the left over any basis. -/
theorem Reading.laurent_one_clifford (x : Nat →₀ ((Nat →₀ Rat) →₀ Rat)) :
    laurent.clifford kind m (single 0 (single 0 1)) x = x := by
  rw [clifford_apply, m.framed_scalar, one_twisted laurent_one_mul
    fun a => (BladeProduct.coefficient_unit associative m.signature a).1, Metric.unframed_framed]

/-- One is neutral from the right over any basis. -/
theorem Reading.laurent_clifford_one (x : Nat →₀ ((Nat →₀ Rat) →₀ Rat)) :
    laurent.clifford kind m x (single 0 (single 0 1)) = x := by
  rw [clifford_apply, m.framed_scalar, twisted_one laurent_mul_one
    fun a => (BladeProduct.coefficient_unit associative m.signature a).2, Metric.unframed_framed]

end Laws

namespace Multivector

/-- A plain multivector of a space with whole nonzero degrees and coefficients of small
denominators. -/
structure Polynomial (dim k : Nat) (a : Multivector) : Prop where
  plain : a.Plain
  inSpace : a.Over dim k
  degrees : ∀ e ∈ a.entries, ∀ p ∈ e.monomial.powers, Dyadic 0 p.degree ∧ p.degree ≠ 0

namespace Polynomial

variable {m : Metric} {kind : BladeProduct} {dim i j k : Nat} {a b : Multivector}

/-- Polynomials are determined by their values. -/
theorem eq_of_read (left : a.Polynomial dim i) (right : b.Polynomial dim j)
    (same : Reading.laurent.read a = Reading.laurent.read b) : a = b := by
  have proper {c : Multivector} {l : Nat} (polynomial : c.Polynomial dim l) :
      ∀ e ∈ c.entries, e.monomial.powers ∈ Proper := fun e inside =>
    ⟨(polynomial.inSpace.canonical.entry inside).increasing,
      fun p member => (polynomial.degrees e inside p member).2⟩
  -- Products may make powers cancel, but leave none of degree zero, so values tell the terms.
  have terms := Reading.laurentProbe.terms_eq left.inSpace.canonical right.inSpace.canonical
    (proper left) (proper right) same
  exact left.plain.eq_of_terms right.plain terms

variable (kind) in
/-- Polynomials have a product, whose value is the product of their values. -/
theorem exists_product (left : a.Polynomial m.dim i) (right : b.Polynomial m.dim j)
    (small : i + j + 3 ≤ exactBits) :
    ∃ c, kind.product m a b = .ok c ∧ c.Polynomial m.dim (i + j + 3) ∧
      Reading.laurent.read c =
        Reading.laurent.clifford kind m (Reading.laurent.read a) (Reading.laurent.read b) := by
  have slack := m.slack_le
  have whole {d : Multivector} {l : Nat} (polynomial : d.Polynomial m.dim l) {e : Entry}
      (inside : e ∈ d.entries) : ∀ p ∈ e.monomial.powers, Dyadic 0 p.degree :=
    fun p member => (polynomial.degrees e inside p member).1
  -- The product exists since all degrees are whole.
  obtain ⟨c, product⟩ := BladeProduct.exists_product kind left.inSpace right.inSpace left.plain.1
    right.plain.1 (by omega) fun x first y second =>
      multipliable_of_whole (whole left first) (whole right second)
  obtain ⟨inSpace, plain, represents⟩ := BladeProduct.product_product (r := Reading.laurent)
    left.inSpace right.inSpace (by omega) (fun x first y second =>
      Reading.multiplies_laurent (whole left first) (whole right second)) product
  refine ⟨c, product, ⟨plain, inSpace.mono (by omega), fun e inside p member => ?_⟩,
    represents.value⟩
  -- Every power of the product is a sum of powers of the factors.
  obtain ⟨x, first, y, second, made⟩ := represents.source e inside
  exact ⟨(exponents_mulPowers (whole left first) (whole right second) made).2 p member,
    nonzero_mulPowers (fun p member => (left.degrees x first p member).2)
      (fun q member => (right.degrees y second q member).2) made p member⟩

/-- Polynomials have a sum, whose value is the sum of their values. -/
theorem exists_add (left : a.Polynomial dim k) (right : b.Polynomial dim k)
    (small : k ≤ exactBits) :
    ∃ c, a.add b = .ok c ∧ c.Polynomial dim k ∧
      Reading.laurent.read c = Reading.laurent.read a + Reading.laurent.read b := by
  obtain ⟨c, sum, inSpace, plain, source, value⟩ := Multivector.exists_add small left.inSpace
    right.inSpace left.plain.1 right.plain.1
  refine ⟨c, sum, ⟨plain, inSpace, fun e inside p member => ?_⟩, value Reading.laurent⟩
  -- The powers of a sum are powers of the addends.
  obtain ⟨f, given, powers⟩ := source e inside
  rw [← powers] at member
  exact (List.mem_append.mp given).elim (left.degrees f · p member) (right.degrees f · p member)

/-- Polynomials whose coefficients are multiplied by whole factors are polynomials. -/
theorem rescaled {factor : Nat → Rat} (polynomial : a.Polynomial dim k)
    (whole : ∀ e, Dyadic 0 (factor e)) (nonzero : ∀ e, factor e ≠ 0) :
    (a.rescaled factor).Polynomial dim k where
  plain := ⟨rfl, rfl⟩
  inSpace := polynomial.inSpace.rescaled whole nonzero
  degrees e inside := by
    rw [entries_rescaled] at inside
    obtain ⟨f, given, rfl⟩ := List.mem_map.mp inside
    exact polynomial.degrees f given

/-- Multiples of the basis blades of a space are polynomials. -/
theorem basis_of {element : Nat} {q : Rat} (inside : element < dim) (dyadic : Dyadic k q) :
    (Multivector.basis element q).Polynomial dim k := by
  have only : ∀ e ∈ (Multivector.basis element q).entries, e = ⟨element, ⟨q, []⟩⟩ := fun e member => by
    -- A multiple of zero has no entries at all.
    by_cases zero : q = 0
    · simp [Multivector.basis, entries, zero] at member
    · simpa [Multivector.basis, entries, zero, Term.entries] using member
  refine ⟨⟨rfl, rfl⟩, .of_entries (canonical_basis element q) ?_ ?_, ?_⟩
  · exact fun e member => only e member ▸ inside
  · exact fun e member => only e member ▸ dyadic
  · intro e member p power
    rw [only e member] at power
    simp at power

/-- Basis blades of a space are polynomials. -/
theorem basis {element : Nat} (inside : element < dim) :
    (Multivector.basis element 1).Polynomial dim 0 := basis_of inside (.one 0)

/-- The value of a multiple of a basis blade. -/
theorem read_basis_of {M : Type} [AddCommGroup M] [Module Rat M] (r : Reading M) (element : Nat)
    (q : Rat) : r.read (Multivector.basis element q) = single element (q • r.value []) := by
  by_cases zero : q = 0
  · simp [Reading.read, Multivector.basis, entries, zero]
  · simp [Reading.read, Multivector.basis, entries, zero, Term.entries, Reading.weight]

/-- The value of a basis blade. -/
theorem read_basis (element : Nat) :
    Reading.laurent.read (Multivector.basis element 1) = single element (single 0 1) := by
  rw [read_basis_of, one_smul]
  simp [Reading.laurent, exponents]

end Polynomial

/-- A plain canonical multivector of a space with whole coefficients and whole nonzero degrees. -/
structure Integral (dim : Nat) (a : Multivector) : Prop extends a.Whole dim where
  degrees : ∀ e ∈ a.entries, ∀ p ∈ e.monomial.powers, p.degree.den = 1 ∧ p.degree ≠ 0

instance {dim : Nat} {a : Multivector} : Decidable (a.Integral dim) :=
  decidable_of_iff (a.Whole dim ∧
      ∀ e ∈ a.entries, ∀ p ∈ e.monomial.powers, p.degree.den = 1 ∧ p.degree ≠ 0)
    ⟨fun ⟨whole, degrees⟩ => ⟨whole, degrees⟩, fun integral => ⟨integral.toWhole, integral.degrees⟩⟩

/-- Integral multivectors are polynomials without a denominator. -/
theorem Integral.polynomial {dim : Nat} {a : Multivector} (integral : a.Integral dim) :
    a.Polynomial dim 0 where
  plain := integral.plain
  inSpace := integral.toWhole.over
  degrees e inside p member :=
    ⟨Dyadic.zero_iff.mpr (integral.degrees e inside p member).1,
      (integral.degrees e inside p member).2⟩

end Multivector

/-- The laws of a ring for a product of three multivectors. -/
structure RingLaws (mul : Multivector → Multivector → Result Multivector) (a b c : Multivector) :
    Prop where
  assoc : ∃ d, (do mul (← mul a b) c) = .ok d ∧ (do mul a (← mul b c)) = .ok d
  left_distrib : ∃ d, (do mul a (← b.add c)) = .ok d ∧ (do (← mul a b).add (← mul a c)) = .ok d
  right_distrib : ∃ d, (do mul (← a.add b) c) = .ok d ∧ (do (← mul a c).add (← mul b c)) = .ok d
  one_mul : mul (.scalar 1) a = .ok a
  mul_one : mul a (.scalar 1) = .ok a

section Ring

open Multivector

variable {m : Metric} {a b c : Multivector}

/-- Products of three polynomials may be regrouped where those of blades may. -/
theorem polynomial_regroup {inner outer inner' outer' : BladeProduct}
    (law : BladeProduct.Regroups inner outer inner' outer') (first : a.Polynomial m.dim 0)
    (second : b.Polynomial m.dim 0) (third : c.Polynomial m.dim 0) :
    ∃ d, (do outer.product m (← inner.product m a b) c) = .ok d ∧
      (do outer'.product m a (← inner'.product m b c)) = .ok d := by
  obtain ⟨ab, runAB, polyAB, valueAB⟩ := first.exists_product inner second (by decide)
  obtain ⟨bc, runBC, polyBC, valueBC⟩ := second.exists_product inner' third (by decide)
  obtain ⟨left, runLeft, polyLeft, valueLeft⟩ := polyAB.exists_product outer third
    (by decide)
  obtain ⟨right, runRight, polyRight, valueRight⟩ := first.exists_product outer' polyBC
    (by decide)
  -- Both groupings return; they are equal since polynomials are determined by their values.
  have same : left = right := by
    refine polyLeft.eq_of_read polyRight ?_
    rw [valueLeft, valueAB, valueRight, valueBC, Reading.laurent_clifford_regroup law]
  exact ⟨left, by rw [runAB, Result.ok_bind, runLeft], by rw [runBC, Result.ok_bind, runRight, same]⟩

variable {kind : BladeProduct} (associative : kind.Associative)

include associative

/-- Associative products of polynomials are associative. -/
theorem polynomial_assoc (first : a.Polynomial m.dim 0) (second : b.Polynomial m.dim 0)
    (third : c.Polynomial m.dim 0) :
    ∃ d, (do kind.product m (← kind.product m a b) c) = .ok d ∧
      (do kind.product m a (← kind.product m b c)) = .ok d :=
  polynomial_regroup associative.regroups first second third

omit associative in
/-- Products of polynomials distribute over sums on the right. -/
theorem polynomial_left_distrib (first : a.Polynomial m.dim 0) (second : b.Polynomial m.dim 0)
    (third : c.Polynomial m.dim 0) :
    ∃ d, (do kind.product m a (← b.add c)) = .ok d ∧
      (do (← kind.product m a b).add (← kind.product m a c)) = .ok d := by
  obtain ⟨sum, runSum, polySum, valueSum⟩ := second.exists_add third (by decide)
  obtain ⟨ab, runAB, polyAB, valueAB⟩ := first.exists_product kind second (by decide)
  obtain ⟨ac, runAC, polyAC, valueAC⟩ := first.exists_product kind third (by decide)
  obtain ⟨left, runLeft, polyLeft, valueLeft⟩ := first.exists_product kind polySum
    (by decide)
  obtain ⟨right, runRight, polyRight, valueRight⟩ := polyAB.exists_add polyAC (by decide)
  have same : left = right := by
    refine polyLeft.eq_of_read polyRight ?_
    rw [valueLeft, valueSum, valueRight, valueAB, valueAC, map_add]
  exact ⟨left, by rw [runSum, Result.ok_bind, runLeft],
    by rw [runAB, Result.ok_bind, runAC, Result.ok_bind, runRight, same]⟩

omit associative in
/-- Products of polynomials distribute over sums on the left. -/
theorem polynomial_right_distrib (first : a.Polynomial m.dim 0) (second : b.Polynomial m.dim 0)
    (third : c.Polynomial m.dim 0) :
    ∃ d, (do kind.product m (← a.add b) c) = .ok d ∧
      (do (← kind.product m a c).add (← kind.product m b c)) = .ok d := by
  obtain ⟨sum, runSum, polySum, valueSum⟩ := first.exists_add second (by decide)
  obtain ⟨ac, runAC, polyAC, valueAC⟩ := first.exists_product kind third (by decide)
  obtain ⟨bc, runBC, polyBC, valueBC⟩ := second.exists_product kind third (by decide)
  obtain ⟨left, runLeft, polyLeft, valueLeft⟩ := polySum.exists_product kind third
    (by decide)
  obtain ⟨right, runRight, polyRight, valueRight⟩ := polyAC.exists_add polyBC (by decide)
  have same : left = right := by
    refine polyLeft.eq_of_read polyRight ?_
    rw [valueLeft, valueSum, valueRight, valueAC, valueBC, map_add, LinearMap.add_apply]
  exact ⟨left, by rw [runSum, Result.ok_bind, runLeft],
    by rw [runAC, Result.ok_bind, runBC, Result.ok_bind, runRight, same]⟩

/-- One is a unit of associative products of polynomials. -/
theorem polynomial_unit (first : a.Polynomial m.dim 0) :
    kind.product m (scalar 1) a = .ok a ∧ kind.product m a (scalar 1) = .ok a := by
  -- One is the multiple by one of the scalar blade.
  have one : (scalar 1).Polynomial m.dim 0 := Polynomial.basis m.dim_pos
  have value : Reading.laurent.read (scalar 1) = single 0 (single 0 1) := Polynomial.read_basis 0
  obtain ⟨left, runLeft, polyLeft, valueLeft⟩ := one.exists_product kind first (by decide)
  obtain ⟨right, runRight, polyRight, valueRight⟩ := first.exists_product kind one
    (by decide)
  have sameLeft : left = a := by
    refine polyLeft.eq_of_read first ?_
    rw [valueLeft, value, Reading.laurent_one_clifford associative]
  have sameRight : right = a := by
    refine polyRight.eq_of_read first ?_
    rw [valueRight, value, Reading.laurent_clifford_one associative]
  exact ⟨sameLeft ▸ runLeft, sameRight ▸ runRight⟩

/-- Associative products of polynomials satisfy the laws of a ring. -/
theorem polynomial_ringLaws (first : a.Polynomial m.dim 0) (second : b.Polynomial m.dim 0)
    (third : c.Polynomial m.dim 0) : RingLaws (kind.product m) a b c where
  assoc := polynomial_assoc associative first second third
  left_distrib := polynomial_left_distrib first second third
  right_distrib := polynomial_right_distrib first second third
  one_mul := (polynomial_unit associative first).1
  mul_one := (polynomial_unit associative first).2

end Ring

namespace Algebra

/-- The multivectors of an algebra form a ring under the geometric and under the exterior product. -/
theorem integral_ring (A : Algebra) {a b c : Multivector} (first : a.Integral A.dim)
    (second : b.Integral A.dim) (third : c.Integral A.dim) :
    RingLaws A.geometric a b c ∧ RingLaws A.wedge a b c :=
  ⟨polynomial_ringLaws (.inl rfl) first.polynomial second.polynomial third.polynomial,
    polynomial_ringLaws (.inr rfl) first.polynomial second.polynomial third.polynomial⟩

/-- Three multivectors of a conformal algebra, with a negative degree and with both null vectors. -/
theorem integral_ring_conformal :
    let A : Algebra := { metric := .null ⟨2, 1, 0, by decide⟩ (by decide) (by decide) }
    let a : Multivector := { terms := [⟨2, [⟨2, [⟨0, 1⟩]⟩]⟩, ⟨5, [⟨3, [⟨1, 2⟩]⟩]⟩] }
    let b : Multivector := { terms := [⟨4, [⟨1, [⟨0, -1⟩]⟩]⟩, ⟨6, [⟨-1, []⟩]⟩] }
    let c : Multivector := { terms := [⟨0, [⟨-2, []⟩, ⟨1, [⟨2, 3⟩]⟩]⟩, ⟨7, [⟨5, [⟨0, 1⟩, ⟨1, 1⟩]⟩]⟩] }
    (a.Integral A.dim ∧ b.Integral A.dim ∧ c.Integral A.dim) ∧
      RingLaws A.geometric a b c ∧ RingLaws A.wedge a b c := by
  -- Each of the three is checked by evaluation.
  intro A a b c
  have first : a.Integral A.dim := by decide +kernel
  have second : b.Integral A.dim := by decide +kernel
  have third : c.Integral A.dim := by decide +kernel
  exact ⟨⟨first, second, third⟩, integral_ring A first second third⟩

end Algebra

end Clifford
