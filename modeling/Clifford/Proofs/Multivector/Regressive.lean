import Clifford.Proofs.Multivector.Dual
import Clifford.Proofs.Multivector.Ring

/-! The regressive product: it is associative and has the blade of all vectors as its unit up to the
sign that the dual leaves when it is taken twice. -/

namespace Clifford

open Finsupp

namespace Reading

variable {M : Type} [AddCommGroup M] [Module Rat M] (r : Reading M) {m : Metric} {x y z : Nat →₀ M}

/-- The sign that the dual leaves when it is taken twice is multiplicative in exterior products. -/
theorem doubleDual_clifford (left : x ∈ spaceValues M m.dim) (right : y ∈ spaceValues M m.dim) :
    doubleDual m.n (r.clifford .exterior m x y) =
      r.clifford .exterior m (doubleDual m.n x) (doubleDual m.n y) := by
  -- On two blades the signs multiply as the blades do.
  have law : ∀ a < m.dim, ∀ b < m.dim,
      (Blade.doubleDualSign m.n (a ^^^ b) : Rat) *
          (BladeProduct.exterior.coefficient m.signature a b : Rat) =
        Blade.doubleDualSign m.n a * Blade.doubleDualSign m.n b *
          BladeProduct.exterior.coefficient m.signature a b := by
    intro a insideA b insideB
    rw [m.dim_eq_two_pow] at insideA insideB
    rw [Blade.doubleDualSign_xor insideA insideB, Int.cast_mul]
  -- The sign commutes with the change of basis, since both of its vectors have the same grade.
  have commutes (matrix : PairMatrix) (v : Nat →₀ M) :
      m.frame matrix (doubleDual m.n v) = doubleDual m.n (m.frame matrix v) :=
    Metric.frame_bladewise (gradewise_doubleDualSign m.n) v
  rw [r.clifford_apply, r.clifford_apply, Metric.unframed, Metric.framed, commutes, commutes,
    ← commutes, doubleDual, r.bladewise_twisted law]
  exacts [Metric.framed_mem left, Metric.framed_mem right]

/-- Taking the dual four times changes nothing. -/
theorem doubleDual_doubleDual (n : Nat) (x : Nat →₀ M) : doubleDual n (doubleDual n x) = x := by
  rw [doubleDual, bladewise_bladewise]
  -- Every sign is its own inverse.
  have units : (fun e => (Blade.doubleDualSign n e : Rat) * Blade.doubleDualSign n e) =
      fun _ => 1 := by
    funext e
    rcases Blade.swapSign_cases (Blade.grade e * (n - Blade.grade e)) with one | minus <;>
      simp [Blade.doubleDualSign, *]
  rw [units, bladewise_const, one_smul]

/-- The regressive product of values: the dual of the exterior product of the duals. -/
noncomputable def regressive (m : Metric) (x y : Nat →₀ M) : Nat →₀ M :=
  dualValue m.n (r.clifford .exterior m (dualValue m.n x) (dualValue m.n y))

section Laurent

variable {x y z : Nat →₀ ((Nat →₀ Rat) →₀ Rat)}

/-- Regressive products of values are associative when the signs of the dual taken twice are put on
the outer factors of one side. -/
theorem regressive_assoc (first : x ∈ spaceValues _ m.dim) (second : y ∈ spaceValues _ m.dim)
    (third : z ∈ spaceValues _ m.dim) :
    laurent.regressive m (laurent.regressive m x y) z =
      laurent.regressive m (doubleDual m.n x) (laurent.regressive m y (doubleDual m.n z)) := by
  have product {v w : Nat →₀ ((Nat →₀ Rat) →₀ Rat)} (left : v ∈ spaceValues _ m.dim)
      (right : w ∈ spaceValues _ m.dim) :
      dualValue m.n (dualValue m.n (laurent.clifford .exterior m v w)) =
        laurent.clifford .exterior m (doubleDual m.n v) (doubleDual m.n w) := by
    rw [dualValue_dualValue (m.dim_eq_two_pow ▸ laurent.clifford_mem .exterior left right),
      doubleDual_clifford laurent left right]
  -- Duals stay in the space, where they commute with the sign.
  have dual {v : Nat →₀ ((Nat →₀ Rat) →₀ Rat)} (inSpace : v ∈ spaceValues _ m.dim) :
      dualValue m.n v ∈ spaceValues _ m.dim ∧
        dualValue m.n (doubleDual m.n v) = doubleDual m.n (dualValue m.n v) := by
    rw [m.dim_eq_two_pow] at inSpace ⊢
    exact ⟨dualValue_mem inSpace, dualValue_doubleDual inSpace⟩
  have signed : doubleDual m.n (dualValue m.n z) ∈ spaceValues _ m.dim :=
    bladewise_mem (dual third).1
  -- The inner product comes out of two duals with the sign of both of its factors.
  rw [regressive, regressive, regressive, regressive, product (dual first).1 (dual second).1,
    (dual first).2, (dual third).2, product (dual second).1 signed, doubleDual_doubleDual,
    laurent_clifford_assoc (.inr rfl)]

/-- The dual of the blade of all vectors is one. -/
theorem dualValue_all (x : (Nat →₀ Rat) →₀ Rat) :
    dualValue m.n (single m.pseudoscalar x) = single 0 x := by
  have all : m.pseudoscalar = Blade.vector m.n - 1 := rfl
  have nothing : Blade.lacking m.n (Blade.vector m.n - 1) = 0 := Nat.xor_self _
  have bounded : Blade.vector m.n - 1 < 2 ^ m.n := by
    rw [Blade.vector_eq]
    have := Nat.two_pow_pos m.n
    omega
  -- Nothing is missing from the blade of all vectors.
  rw [dualValue_single, all, Blade.complement_eq bounded, nothing, Blade.crossings_zero_right]
  simp

/-- The blade of all vectors is neutral up to the signs of the dual taken twice. -/
theorem regressive_unit (inSpace : x ∈ spaceValues _ m.dim) :
    laurent.regressive m (single m.pseudoscalar (single 0 1)) x = doubleDual m.n x ∧
      laurent.regressive m x (single m.pseudoscalar (single 0 1)) = doubleDual m.n x := by
  -- The dual of the blade of all vectors is neutral in the exterior product.
  rw [regressive, regressive, dualValue_all, laurent_one_clifford (.inr rfl),
    laurent_clifford_one (.inr rfl), dualValue_dualValue (m.dim_eq_two_pow ▸ inSpace)]
  exact ⟨rfl, rfl⟩

end Laurent

end Reading

namespace Multivector.Polynomial

variable {m : Metric} {i j k : Nat} {a b : Multivector}

/-- Polynomials have a dual, whose value is the dual of their value. -/
theorem exists_dual (polynomial : a.Polynomial m.dim k) (small : k ≤ exactBits) :
    ∃ b, a.dual m.n = .ok b ∧ b.Polynomial m.dim k ∧
      Reading.laurent.read b = dualValue m.n (Reading.laurent.read a) := by
  have inSpace := polynomial.inSpace
  rw [m.dim_eq_two_pow] at inSpace ⊢
  obtain ⟨b, made, inSpace, plain, source, value⟩ :=
    Multivector.exists_dual small inSpace polynomial.plain.1
  refine ⟨b, made, ⟨plain, inSpace, fun e inside => ?_⟩, value Reading.laurent⟩
  obtain ⟨f, given, powers⟩ := source e inside
  exact powers ▸ polynomial.degrees f given

/-- Polynomials have a dual of their dual, whose value has the sign of every blade. -/
theorem exists_doubleDual (polynomial : a.Polynomial m.dim k) (small : k ≤ exactBits) :
    ∃ b, (do (← a.dual m.n).dual m.n) = .ok b ∧ b.Polynomial m.dim k ∧
      Reading.laurent.read b = doubleDual m.n (Reading.laurent.read a) := by
  -- One dual is taken after the other.
  obtain ⟨b, first, polyB, valueB⟩ := polynomial.exists_dual small
  obtain ⟨c, second, polyC, valueC⟩ := polyB.exists_dual small
  refine ⟨c, by rw [first, Result.ok_bind, second], polyC, ?_⟩
  rw [valueC, valueB, dualValue_dualValue]
  exact m.dim_eq_two_pow ▸ Reading.laurent.read_mem_spaceValues polynomial.inSpace

/-- Polynomials have a regressive product, whose value is the product of their values. -/
theorem exists_regressive (left : a.Polynomial m.dim i) (right : b.Polynomial m.dim j)
    (small : i + j + 3 ≤ exactBits) :
    ∃ c, a.regressive m b = .ok c ∧ c.Polynomial m.dim (i + j + 3) ∧
      Reading.laurent.read c =
        Reading.laurent.regressive m (Reading.laurent.read a) (Reading.laurent.read b) := by
  -- Both factors have a dual, these a product, and the product a dual.
  obtain ⟨a', dualA, polyA, valueA⟩ := left.exists_dual (by omega)
  obtain ⟨b', dualB, polyB, valueB⟩ := right.exists_dual (by omega)
  obtain ⟨c, product, polyC, valueC⟩ := polyA.exists_product .exterior polyB small
  obtain ⟨d, dualC, polyD, valueD⟩ := polyC.exists_dual small
  refine ⟨d, ?_, polyD, by rw [valueD, valueC, valueA, valueB, Reading.regressive]⟩
  rw [Multivector.regressive, dualA, Result.ok_bind, dualB, Result.ok_bind, product, Result.ok_bind,
    dualC]

/-- The dual of the dual of a polynomial multiplies every term by the sign of its blade. -/
theorem doubleDual_eq_rescaled (polynomial : a.Polynomial m.dim k) (small : k ≤ exactBits)
    (twice : (do (← a.dual m.n).dual m.n) = .ok b) :
    b = a.rescaled fun e => (Blade.doubleDualSign m.n e : Rat) := by
  obtain ⟨c, again, polyC, value⟩ := polynomial.exists_doubleDual small
  obtain rfl := Except.ok.inj (twice.symm.trans again)
  have rescaled : (a.rescaled fun e => (Blade.doubleDualSign m.n e : Rat)).Polynomial m.dim k :=
    polynomial.rescaled (fun e => Dyadic.intCast _) fun e => by
      rcases Blade.swapSign_cases (Blade.grade e * (m.n - Blade.grade e)) with one | minus <;>
        simp [Blade.doubleDualSign, *]
  exact polyC.eq_of_read rescaled (by rw [value, read_rescaled, doubleDual])

end Multivector.Polynomial

namespace Multivector

/-- Factors that agree on the blades of a multivector rescale it alike. -/
theorem rescaled_congr {f g : Nat → Rat} {a : Multivector}
    (same : ∀ t ∈ a.terms, f t.element = g t.element) : a.rescaled f = a.rescaled g := by
  rw [rescaled, rescaled]
  congr 1
  exact List.map_congr_left fun t member => by rw [same t member]

/-- A plain multivector is left as it is exactly by factors of one on its blades. -/
theorem rescaled_eq_self {f : Nat → Rat} {a : Multivector} (plain : a.Plain)
    (canonical : a.Canonical) : a.rescaled f = a ↔ ∀ t ∈ a.terms, f t.element = 1 := by
  have unchanged {α : Type} {f : α → α} {l : List α} : l.map f = l ↔ ∀ x ∈ l, f x = x := by
    simpa using List.map_inj_left (f := f) (g := id) (l := l)
  constructor
  · intro same t member
    -- The first coefficient of the term is not zero, and keeps its value.
    obtain ⟨mono, inside⟩ := List.exists_mem_of_ne_nil _ (canonical.terms t member).nonempty
    have term := unchanged.mp (congrArg Multivector.terms same) t member
    have monomial := unchanged.mp (congrArg Term.monomials term) mono inside
    have nonzero := ((canonical.terms t member).monomials mono inside).nonzero
    exact (mul_eq_left₀ nonzero).mp (congrArg Monomial.coefficient monomial)
  · intro one
    obtain ⟨terms, op, opScale⟩ := a
    obtain ⟨rfl, rfl⟩ := plain
    rw [rescaled]
    congr 1
    exact unchanged.mpr fun t member => by simp [one t member]

end Multivector

/-- On a multivector with the same sign on all blades the dual taken twice is a multiple. -/
theorem doubleDual_read {M : Type} [AddCommGroup M] [Module Rat M] (r : Reading M) {n : Nat}
    {a : Multivector} {sign : Int} (same : ∀ t ∈ a.terms, Blade.doubleDualSign n t.element = sign) :
    doubleDual n (r.read a) = (sign : Rat) • r.read a := by
  rw [doubleDual, ← Multivector.read_rescaled,
    Multivector.rescaled_congr (g := fun _ => (sign : Rat)) fun t member => by rw [same t member],
    Multivector.read_rescaled, bladewise_const]

/-- The dual of the dual. -/
def Algebra.doubleDual (A : Algebra) (a : Multivector) : Result Multivector := do
  A.dual (← A.dual a)

/-- The laws of the regressive product, for factors on which the dual taken twice may leave signs. -/
structure RegressiveLaws (A : Algebra) (a b c : Multivector) : Prop where
  twice : A.doubleDual a = .ok (a.rescaled fun e => (Blade.doubleDualSign A.n e : Rat))
  assoc_twice : ∃ d, (do A.regressive (← A.regressive a b) c) = .ok d ∧
    (do A.regressive (← A.doubleDual a) (← A.regressive b (← A.doubleDual c))) = .ok d
  unit_twice : ∃ d, A.doubleDual a = .ok d ∧
    A.regressive (A.pseudoscalar 1) a = .ok d ∧ A.regressive a (A.pseudoscalar 1) = .ok d
  assoc : (A.n % 2 = 1 ∨ ∃ parity, ∀ t ∈ a.terms ++ c.terms, Blade.grade t.element % 2 = parity) →
    ∃ d, (do A.regressive (← A.regressive a b) c) = .ok d ∧
      (do A.regressive a (← A.regressive b c)) = .ok d
  unit : (A.regressive (A.pseudoscalar 1) a = .ok a ∧ A.regressive a (A.pseudoscalar 1) = .ok a) ↔
    (A.n % 2 = 1 ∨ ∀ t ∈ a.terms, Blade.grade t.element % 2 = 0)

namespace Algebra

variable (A : Algebra) {a b c : Multivector}

/-- Regressive products of polynomials are associative up to the dual taken twice. -/
theorem regressive_assoc_twice (first : a.Polynomial A.dim 0) (second : b.Polynomial A.dim 0)
    (third : c.Polynomial A.dim 0) :
    ∃ d, (do A.regressive (← A.regressive a b) c) = .ok d ∧
      (do A.regressive (← A.doubleDual a) (← A.regressive b (← A.doubleDual c))) = .ok d := by
  obtain ⟨a', twiceA, polyA, valueA⟩ := first.exists_doubleDual (m := A.metric) (by decide)
  obtain ⟨c', twiceC, polyC, valueC⟩ := third.exists_doubleDual (m := A.metric) (by decide)
  obtain ⟨ab, runAB, polyAB, valueAB⟩ := first.exists_regressive (m := A.metric) second (by decide)
  obtain ⟨bc, runBC, polyBC, valueBC⟩ := second.exists_regressive (m := A.metric) polyC (by decide)
  obtain ⟨left, runLeft, polyLeft, valueLeft⟩ := polyAB.exists_regressive third (by decide)
  obtain ⟨right, runRight, polyRight, valueRight⟩ := polyA.exists_regressive polyBC (by decide)
  -- Both sides are polynomials with the same value.
  have same : right = left := by
    refine polyRight.eq_of_read polyLeft ?_
    rw [valueRight, valueLeft, valueAB, valueBC, valueA, valueC, Reading.regressive_assoc]
    exacts [Reading.laurent.read_mem_spaceValues first.inSpace,
      Reading.laurent.read_mem_spaceValues second.inSpace,
      Reading.laurent.read_mem_spaceValues third.inSpace]
  have doubleA : A.doubleDual a = .ok a' := twiceA
  have doubleC : A.doubleDual c = .ok c' := twiceC
  refine ⟨left, ?_, ?_⟩
  · rw [regressive, runAB, Result.ok_bind, regressive, runLeft]
  · rw [doubleA, Result.ok_bind, doubleC, Result.ok_bind, regressive, runBC, Result.ok_bind,
      regressive, runRight, same]

/-- The blade of all vectors is neutral for polynomials up to the dual taken twice. -/
theorem regressive_unit_twice (polynomial : a.Polynomial A.dim 0) :
    ∃ d, A.doubleDual a = .ok d ∧ A.regressive (A.pseudoscalar 1) a = .ok d ∧
      A.regressive a (A.pseudoscalar 1) = .ok d := by
  have inside : A.metric.pseudoscalar < A.dim := Nat.sub_lt A.metric.dim_pos Nat.one_pos
  -- The blade of all vectors is a polynomial as well.
  have unit := Multivector.Polynomial.basis inside
  obtain ⟨d, twice, polyD, valueD⟩ := polynomial.exists_doubleDual (m := A.metric) (by decide)
  obtain ⟨left, runLeft, polyLeft, valueLeft⟩ := unit.exists_regressive polynomial (by decide)
  obtain ⟨right, runRight, polyRight, valueRight⟩ := polynomial.exists_regressive unit (by decide)
  have neutral := Reading.regressive_unit (Reading.laurent.read_mem_spaceValues polynomial.inSpace)
  have sameLeft : left = d := polyLeft.eq_of_read polyD (by
    rw [valueLeft, valueD, Multivector.Polynomial.read_basis, neutral.1])
  have sameRight : right = d := polyRight.eq_of_read polyD (by
    rw [valueRight, valueD, Multivector.Polynomial.read_basis, neutral.2])
  exact ⟨d, twice, sameLeft ▸ runLeft, sameRight ▸ runRight⟩

/-- Regressive products of polynomials are associative where the dual taken twice leaves one sign on
both outer factors. -/
theorem regressive_assoc_of_sign (first : a.Polynomial A.dim 0) (second : b.Polynomial A.dim 0)
    (third : c.Polynomial A.dim 0) {sign : Int} (unit : sign = 1 ∨ sign = -1)
    (same : ∀ t ∈ a.terms ++ c.terms, Blade.doubleDualSign A.n t.element = sign) :
    ∃ d, (do A.regressive (← A.regressive a b) c) = .ok d ∧
      (do A.regressive a (← A.regressive b c)) = .ok d := by
  obtain ⟨ab, runAB, polyAB, valueAB⟩ := first.exists_regressive (m := A.metric) second (by decide)
  obtain ⟨bc, runBC, polyBC, valueBC⟩ := second.exists_regressive (m := A.metric) third (by decide)
  obtain ⟨left, runLeft, polyLeft, valueLeft⟩ := polyAB.exists_regressive third (by decide)
  obtain ⟨right, runRight, polyRight, valueRight⟩ := first.exists_regressive polyBC (by decide)
  have square : (sign : Rat) * sign = 1 := by rcases unit with rfl | rfl <;> norm_num
  have equal : right = left := by
    refine polyRight.eq_of_read polyLeft ?_
    rw [valueLeft, valueAB, Reading.regressive_assoc, valueRight, valueBC,
      doubleDual_read (n := A.metric.n) _ fun t member => same t (List.mem_append_left _ member),
      doubleDual_read (n := A.metric.n) _ fun t member => same t (List.mem_append_right _ member)]
    · -- Both signs come out of the product, where they cancel.
      simp only [Reading.regressive, map_smul, LinearMap.smul_apply, smul_smul, square, one_smul]
    · exact Reading.laurent.read_mem_spaceValues first.inSpace
    · exact Reading.laurent.read_mem_spaceValues second.inSpace
    · exact Reading.laurent.read_mem_spaceValues third.inSpace
  exact ⟨left, by rw [regressive, runAB, Result.ok_bind, regressive, runLeft],
    by rw [regressive, runBC, Result.ok_bind, regressive, runRight, equal]⟩

/-- The dual of the dual of a polynomial multiplies every term by the sign of its blade. -/
theorem doubleDual_eq (polynomial : a.Polynomial A.dim 0) :
    A.doubleDual a = .ok (a.rescaled fun e => (Blade.doubleDualSign A.n e : Rat)) := by
  -- The double dual exists, and so it is the multivector with the signs.
  obtain ⟨b, twice, -⟩ := polynomial.exists_doubleDual (m := A.metric) (by decide)
  rw [show A.doubleDual a = .ok b from twice,
    Multivector.Polynomial.doubleDual_eq_rescaled (m := A.metric) polynomial (by decide) twice]
  rfl

/-- The regressive product of an algebra is associative, with the blade of all vectors as its unit, up
to the dual taken twice; and without a sign where the dimension is odd or the grades are even. -/
theorem regressive_laws (A : Algebra) {a b c : Multivector} (first : a.Integral A.dim)
    (second : b.Integral A.dim) (third : c.Integral A.dim) : RegressiveLaws A a b c where
  twice := A.doubleDual_eq first.polynomial
  assoc_twice := A.regressive_assoc_twice first.polynomial second.polynomial third.polynomial
  unit_twice := A.regressive_unit_twice first.polynomial
  assoc := by
    intro alike
    have power : A.dim = 2 ^ A.n := A.metric.dim_eq_two_pow
    have bounded : ∀ t ∈ a.terms ++ c.terms, t.element < 2 ^ A.n := fun t member =>
      power ▸ (List.mem_append.mp member).elim (first.bounded t) (third.bounded t)
    -- One sign is left on all terms of both outer factors.
    obtain ⟨sign, unit, same⟩ : ∃ sign : Int, (sign = 1 ∨ sign = -1) ∧
        ∀ t ∈ a.terms ++ c.terms, Blade.doubleDualSign A.n t.element = sign := by
      rcases alike with odd | ⟨parity, grades⟩
      · exact ⟨1, .inl rfl, fun t member => by
          rw [Blade.doubleDualSign_ite (bounded t member), if_pos (.inl odd)]⟩
      · refine ⟨if A.n % 2 = 1 ∨ parity = 0 then 1 else -1, by split <;> simp, fun t member => ?_⟩
        rw [Blade.doubleDualSign_ite (bounded t member), grades t member]
    exact A.regressive_assoc_of_sign first.polynomial second.polynomial third.polynomial unit same
  unit := by
    -- The product with the unit is the double dual, which leaves every sign at one exactly in these
    -- cases.
    obtain ⟨d, twice, left, right⟩ := A.regressive_unit_twice first.polynomial
    have rescaled := A.doubleDual_eq first.polynomial
    obtain rfl := Except.ok.inj (twice.symm.trans rescaled)
    have kept := Multivector.rescaled_eq_self
      (f := fun e => (Blade.doubleDualSign A.n e : Rat)) first.plain first.canonical
    have sign : ∀ t ∈ a.terms, (Blade.doubleDualSign A.n t.element : Rat) = 1 ↔
        A.n % 2 = 1 ∨ Blade.grade t.element % 2 = 0 := fun t member => by
      have power : A.dim = 2 ^ A.n := A.metric.dim_eq_two_pow
      rw [Blade.doubleDualSign_ite (power ▸ first.bounded t member)]
      split
      · rename_i one
        simp [one]
      · rename_i minus
        exact iff_of_false (by norm_num) minus
    have every : (A.n % 2 = 1 ∨ ∀ t ∈ a.terms, Blade.grade t.element % 2 = 0) ↔
        ∀ t ∈ a.terms, A.n % 2 = 1 ∨ Blade.grade t.element % 2 = 0 := by
      by_cases odd : A.n % 2 = 1 <;> simp [odd]
    rw [left, right, and_self, Except.ok.injEq, kept, every]
    exact forall₂_congr sign

/-- The laws for `2 * x * e_o + 3 * y² * e₁ ∧ e_inf`, `x⁻¹ * e_inf - e_o ∧ e_inf` and a sum of a number
and a multiple of `e₁ ∧ e₂ ∧ e_o` in a conformal algebra of four dimensions. -/
theorem regressive_laws_conformal :
    let A : Algebra := { metric := .null ⟨3, 1, 0, by decide⟩ (by decide) (by decide) }
    let a : Multivector := { terms := [⟨4, [⟨2, [⟨0, 1⟩]⟩]⟩, ⟨9, [⟨3, [⟨1, 2⟩]⟩]⟩] }
    let b : Multivector := { terms := [⟨8, [⟨1, [⟨0, -1⟩]⟩]⟩, ⟨12, [⟨-1, []⟩]⟩] }
    let c : Multivector := { terms := [⟨0, [⟨-2, []⟩]⟩, ⟨7, [⟨5, [⟨0, 1⟩, ⟨1, 1⟩]⟩]⟩] }
    (a.Integral A.dim ∧ b.Integral A.dim ∧ c.Integral A.dim) ∧ RegressiveLaws A a b c := by
  intro A a b c
  have first : a.Integral A.dim := by decide +kernel
  have second : b.Integral A.dim := by decide +kernel
  have third : c.Integral A.dim := by decide +kernel
  exact ⟨⟨first, second, third⟩, regressive_laws A first second third⟩

/-- In the plane the blade of all vectors changes the sign of a vector, and is not associative with
it. -/
theorem not_regressive_laws :
    let A : Algebra := { metric := .diagonal ⟨2, 0, 0, by decide⟩ }
    let v : Multivector := .basis 1 1
    (v.Integral A.dim ∧ (A.pseudoscalar 1).Integral A.dim) ∧
      A.regressive (A.pseudoscalar 1) v = .ok (.basis 1 (-1)) ∧
      A.regressive (A.pseudoscalar 1) v ≠ .ok v ∧
      ¬∃ d, (do A.regressive (← A.regressive (A.pseudoscalar 1) (A.pseudoscalar 1)) v) = .ok d ∧
        (do A.regressive (A.pseudoscalar 1) (← A.regressive (A.pseudoscalar 1) v)) = .ok d := by
  intro A v
  have integral {e : Nat} (inside : e < A.dim) : (Multivector.basis e 1).Integral A.dim := by
    refine ⟨⟨⟨rfl, rfl⟩, Multivector.canonical_basis e 1, fun t member => ?_, ?_⟩, ?_⟩
    · obtain rfl : t = ⟨e, [⟨1, []⟩]⟩ := by simpa [Multivector.basis] using member
      exact inside
    · simp [Multivector.basis, Multivector.entries, Term.entries]
    · simp [Multivector.basis, Multivector.entries, Term.entries]
  refine ⟨⟨integral (by decide), integral (by decide)⟩, by decide +kernel, by decide +kernel, ?_⟩
  rintro ⟨d, left, right⟩
  -- The left side has the sign of the first product, the right side that of two products.
  have differ : (do A.regressive (← A.regressive (A.pseudoscalar 1) (A.pseudoscalar 1)) v) ≠
      (do A.regressive (A.pseudoscalar 1) (← A.regressive (A.pseudoscalar 1) v)) := by
    decide +kernel
  exact differ (left.trans right.symm)

end Algebra

end Clifford
