import Clifford.Proofs.Multivector.Bilinear
import Clifford.Proofs.Multivector.Sum

/-! Laurent polynomials: multivectors with whole degrees are determined by their values as sums of
exponents, in which products of powers add up. -/

namespace Clifford

open Finsupp

/-- The exponents of a power sequence, as a function of the id. -/
noncomputable def exponents (powers : List Power) : Nat →₀ Rat :=
  (powers.map fun p => single p.id p.degree).sum

/-- Exponents as values of powers. -/
noncomputable def PowerValue.exponent : PowerValue (Multiplicative (Nat →₀ Rat)) where
  value p := .ofAdd (single p.id p.degree)
  Admits p := Dyadic 0 p.degree
  whole admitted := admitted
  admits_add := @Power.dyadic_add
  value_add _ _ same := by rw [single_add, ofAdd_add, same]
  value_zero zero := by rw [zero, single_zero, ofAdd_zero]

/-- The exponents of a sequence are its product of exponents. -/
theorem product_exponent (powers : List Power) :
    PowerValue.exponent.product powers = .ofAdd (exponents powers) := by
  induction powers with
  | nil => rfl
  | cons p rest ih =>
    simp only [PowerValue.product, exponents, List.map_cons, List.prod_cons, List.sum_cons,
      ofAdd_add] at ih ⊢
    rw [ih]
    rfl

/-- Whole exponents of a product add up. -/
theorem exponents_mulPowers {ps qs rs : List Power} (left : ∀ p ∈ ps, Dyadic 0 p.degree)
    (right : ∀ q ∈ qs, Dyadic 0 q.degree) (product : mulPowers ps qs = .ok rs) :
    exponents rs = exponents ps + exponents qs ∧ ∀ r ∈ rs, Dyadic 0 r.degree := by
  obtain ⟨rs', again, whole, value⟩ := PowerValue.exponent.exists_mulPowers ps qs left right
  obtain rfl : rs = rs' := by simpa [product] using again
  -- A product of powers is unique, and its value is the product of the values.
  rw [product_exponent, product_exponent, product_exponent, ← ofAdd_add] at value
  exact ⟨Multiplicative.ofAdd.injective value, whole⟩

/-- Power sequences in canonical form without a degree of zero. -/
def Proper : Set (List Power) := {powers | Increasing powers ∧ ∀ p ∈ powers, p.degree ≠ 0}

/-- The exponents of an id that is not in a sequence are zero. -/
theorem exponents_of_absent {powers : List Power} {id : Nat} (absent : ∀ p ∈ powers, p.id ≠ id) :
    exponents powers id = 0 := by
  induction powers with
  | nil => rfl
  | cons p rest ih =>
    rw [exponents, List.map_cons, List.sum_cons, ← exponents, Finsupp.add_apply,
      ih fun q inside => absent q (List.mem_cons_of_mem _ inside),
      single_eq_of_ne (absent p (by simp)).symm, add_zero]

/-- The exponent of an id in a proper sequence is the degree of its power. -/
theorem exponents_of_mem {powers : List Power} (increasing : Increasing powers) {p : Power}
    (inside : p ∈ powers) : exponents powers p.id = p.degree := by
  induction powers with
  | nil => simp at inside
  | cons q rest ih =>
    obtain ⟨above, increasingRest⟩ := increasing_cons.mp increasing
    rw [exponents, List.map_cons, List.sum_cons, ← exponents, Finsupp.add_apply]
    -- Ids increase, so that the id of the first power does not come again.
    rcases List.mem_cons.mp inside with rfl | later
    · rw [exponents_of_absent fun q inside => (above q inside).ne', single_eq_same, add_zero]
    · rw [ih increasingRest later, single_eq_of_ne (above p later).ne', zero_add]

/-- A power of a proper sequence is a power of every other one with the same exponents. -/
theorem mem_of_exponents {ps qs : List Power} (left : ps ∈ Proper) (right : qs ∈ Proper)
    (same : exponents ps = exponents qs) : ∀ p ∈ ps, p ∈ qs := by
  intro p inside
  have degree := exponents_of_mem left.1 inside
  rw [same] at degree
  -- A power that the other sequence lacks would have an exponent of zero there.
  by_contra missing
  by_cases present : ∃ q ∈ qs, q.id = p.id
  · obtain ⟨q, member, id⟩ := present
    have other := exponents_of_mem right.1 member
    rw [id, degree] at other
    have equal : q = p := by
      cases q
      cases p
      simp_all
    exact missing (equal ▸ member)
  · rw [exponents_of_absent fun q member id => present ⟨q, member, id⟩] at degree
    exact left.2 p inside degree.symm

/-- Proper sequences are determined by their exponents. -/
theorem exponents_injOn : Set.InjOn exponents Proper := by
  intro ps left qs right same
  -- Both are sorted by ids, and have the same members.
  have order {rs : List Power} (increasing : Increasing rs) :
      rs.Pairwise fun p q => p.id < q.id := List.pairwise_map.mp increasing
  have nodup {rs : List Power} (increasing : Increasing rs) : rs.Nodup := by
    refine (order increasing).imp fun {p q} less => ?_
    rintro rfl
    exact lt_irrefl _ less
  refine List.Perm.eq_of_pairwise (fun p q _ _ less more => by omega) (order left.1) (order right.1)
    ((List.perm_ext_iff_of_nodup (nodup left.1) (nodup right.1)).mpr fun p => ?_)
  exact ⟨mem_of_exponents left right same p, mem_of_exponents right left same.symm p⟩

namespace Reading

/-- The reading as Laurent polynomials, which are sums of exponents. -/
noncomputable def laurent : Reading ((Nat →₀ Rat) →₀ Rat) where
  value powers := single (exponents powers) 1
  mul := linearCombination Rat fun e => linearCombination Rat fun f => single (e + f) 1

/-- The product of two exponents. -/
theorem laurent_mul_single (e f : Nat →₀ Rat) (p q : Rat) :
    laurent.mul (single e p) (single f q) = single (e + f) (p * q) := by
  simp [laurent]

/-- Laurent polynomials multiply where degrees are whole. -/
theorem multiplies_laurent {ps qs : List Power} (left : ∀ p ∈ ps, Dyadic 0 p.degree)
    (right : ∀ q ∈ qs, Dyadic 0 q.degree) : laurent.Multiplies ps qs := by
  intro rs product
  show single (exponents rs) 1 = laurent.mul (single (exponents ps) 1) (single (exponents qs) 1)
  rw [laurent_mul_single, (exponents_mulPowers left right product).1, mul_one]

/-- The coefficients of a Laurent polynomial can be read off. -/
noncomputable def laurentProbe : Probe laurent.weight Proper where
  read e ps := coordinate e (exponents ps)
  read_weight e f ps left qs right := by
    have same : exponents qs = exponents ps ↔ qs = ps := exponents_injOn.eq_iff right left
    simp only [weight, laurent, coordinate, LinearMap.comp_apply, lapply_apply, single_apply]
    by_cases element : f = e <;> by_cases powers : qs = ps <;> simp [element, powers, same]

/-- Products of Laurent polynomials are associative. -/
theorem laurent_mul_assoc (x y z : (Nat →₀ Rat) →₀ Rat) :
    laurent.mul (laurent.mul x y) z = laurent.mul x (laurent.mul y z) := by
  -- Both sides are linear in every factor, so that single exponents suffice.
  induction x using Finsupp.induction_linear with
  | zero => simp
  | add x x' left right => simp [left, right]
  | single e p =>
    induction y using Finsupp.induction_linear with
    | zero => simp
    | add y y' left right => simp [left, right]
    | single f q =>
      induction z using Finsupp.induction_linear with
      | zero => simp
      | add z z' left right => simp [left, right]
      | single g r => simp only [laurent_mul_single, add_assoc, mul_assoc]

/-- The constant one is neutral from the left. -/
theorem laurent_one_mul (x : (Nat →₀ Rat) →₀ Rat) : laurent.mul (single 0 1) x = x := by
  induction x using Finsupp.induction_linear with
  | zero => simp
  | add x x' left right => simp [left, right]
  | single e p => rw [laurent_mul_single, zero_add, one_mul]

/-- The constant one is neutral from the right. -/
theorem laurent_mul_one (x : (Nat →₀ Rat) →₀ Rat) : laurent.mul x (single 0 1) = x := by
  induction x using Finsupp.induction_linear with
  | zero => simp
  | add x x' left right => simp [left, right]
  | single e p => rw [laurent_mul_single, add_zero, mul_one]

end Reading

end Clifford
