import Clifford.Proofs.Dense.Vector
import Clifford.Proofs.Multivector.Bilinear

/-! Assignments of numbers to indeterminates: the coefficients of a multivector at an assignment, and
products of them over an orthogonal basis. -/

namespace Clifford

open Finsupp

/-- A power below a bound on ids with a whole degree, and no negative one where its base is zero. -/
def Power.AdmittedBy (ρ : Nat → Rat) (bound : Nat) (p : Power) : Prop :=
  p.id < bound ∧ Dyadic 0 p.degree ∧ (0 ≤ p.degree ∨ ρ p.id ≠ 0)

/-- The value of a power at an assignment. -/
def Power.valueAt (ρ : Nat → Rat) (p : Power) : Rat := ρ p.id ^ p.degree.num

namespace Power

variable {ρ : Nat → Rat} {bound : Nat} {p q : Power}

/-- Admitted powers of one id have an admitted product. -/
theorem AdmittedBy.add (left : p.AdmittedBy ρ bound) (right : q.AdmittedBy ρ bound)
    (same : p.id = q.id) : AdmittedBy ρ bound ⟨p.id, p.degree + q.degree⟩ := by
  -- Degrees that are not negative stay so, and otherwise the common base is not zero.
  refine ⟨left.1, left.2.1.add right.2.1, ?_⟩
  rcases left.2.2 with positive | nonzero
  · rcases right.2.2 with positive' | nonzero
    · exact .inl (add_nonneg positive positive')
    · exact .inr (by rwa [← same] at nonzero)
  · exact .inr nonzero

/-- The numerator of a sum of integers is the sum of their numerators. -/
theorem num_add {d e : Rat} (left : Dyadic 0 d) (right : Dyadic 0 e) :
    (d + e).num = d.num + e.num := by
  -- A dyadic number without a denominator is an integer.
  obtain ⟨m, rfl⟩ := left
  obtain ⟨n, rfl⟩ := right
  have sum : (m : Rat) / 2 ^ 0 + n / 2 ^ 0 = ((m + n : Int) : Rat) := by simp
  rw [sum, Rat.num_intCast]
  simp

/-- The values of admitted powers of one id multiply where their degrees are added. -/
theorem valueAt_add (left : p.AdmittedBy ρ bound) (right : q.AdmittedBy ρ bound)
    (same : p.id = q.id) :
    valueAt ρ ⟨p.id, p.degree + q.degree⟩ = p.valueAt ρ * q.valueAt ρ := by
  -- A base of zero has degrees that are not negative, for which powers of zero multiply as well.
  show ρ p.id ^ (p.degree + q.degree).num = ρ p.id ^ p.degree.num * ρ q.id ^ q.degree.num
  rw [num_add left.2.1 right.2.1, ← same]
  refine zpow_add' ?_
  rcases left.2.2 with positive | nonzero
  · rcases right.2.2 with positive' | nonzero
    · have first : 0 ≤ p.degree.num := Rat.num_nonneg.mpr positive
      have second : 0 ≤ q.degree.num := Rat.num_nonneg.mpr positive'
      omega
    · exact .inl (by rwa [← same] at nonzero)
  · exact .inl nonzero

/-- A power of degree zero is one. -/
theorem valueAt_zero (zero : p.degree = 0) : p.valueAt ρ = 1 := by
  rw [valueAt, zero]
  exact zpow_zero _

end Power

/-- The values of powers at an assignment. -/
def PowerValue.assigned (ρ : Nat → Rat) (bound : Nat) : PowerValue Rat where
  value := Power.valueAt ρ
  Admits := Power.AdmittedBy ρ bound
  whole admitted := admitted.2.1
  admits_add := @Power.AdmittedBy.add ρ bound
  value_add := @Power.valueAt_add ρ bound
  value_zero := @Power.valueAt_zero ρ

/-- The reading of power sequences at an assignment. -/
noncomputable def Reading.assigned (ρ : Nat → Rat) : Reading Rat where
  value powers := (powers.map (Power.valueAt ρ)).prod
  mul := LinearMap.mul Rat Rat

/-- Every power of some entries is admitted by an assignment. -/
def AdmittedEntries (ρ : Nat → Rat) (bound : Nat) (entries : List Entry) : Prop :=
  ∀ e ∈ entries, ∀ p ∈ e.monomial.powers, p.AdmittedBy ρ bound

section Assigned

variable {ρ : Nat → Rat} {bound : Nat}

/-- Admitted powers multiply as their values do. -/
theorem Reading.multiplies_assigned {ps qs : List Power} (left : ∀ p ∈ ps, p.AdmittedBy ρ bound)
    (right : ∀ q ∈ qs, q.AdmittedBy ρ bound) : (assigned ρ).Multiplies ps qs := by
  -- Multiplication of admitted powers is a function, so that it gives the product at hand.
  intro rs product
  obtain ⟨rs', again, -, value⟩ := (PowerValue.assigned ρ bound).exists_mulPowers ps qs left right
  obtain rfl : rs = rs' := by simpa [product] using again
  exact value

/-- The product of admitted powers is admitted. -/
theorem admitted_mulPowers {ps qs rs : List Power} (left : ∀ p ∈ ps, p.AdmittedBy ρ bound)
    (right : ∀ q ∈ qs, q.AdmittedBy ρ bound) (product : mulPowers ps qs = .ok rs) :
    ∀ r ∈ rs, r.AdmittedBy ρ bound := by
  -- The product is the one that admitted powers are known to have.
  obtain ⟨rs', again, admitted, -⟩ :=
    (PowerValue.assigned ρ bound).exists_mulPowers ps qs left right
  obtain rfl : rs = rs' := by simpa [product] using again
  exact admitted

/-- A power stays admitted by an assignment that agrees on the ids below the bound. -/
theorem Power.AdmittedBy.congr {ρ' : Nat → Rat} {bound' : Nat} {p : Power}
    (admitted : p.AdmittedBy ρ bound) (agree : ∀ id < bound, ρ' id = ρ id) (le : bound ≤ bound') :
    p.AdmittedBy ρ' bound' := by
  -- Admission reads the assignment at the id alone, which is below the bound.
  refine ⟨admitted.1.trans_le le, admitted.2.1, ?_⟩
  rw [agree p.id admitted.1]
  exact admitted.2.2

/-- Admitted powers have the value they have at an assignment that agrees below the bound. -/
theorem Reading.assigned_congr {ρ' : Nat → Rat} {powers : List Power}
    (admitted : ∀ p ∈ powers, p.AdmittedBy ρ bound) (agree : ∀ id < bound, ρ' id = ρ id) :
    (assigned ρ').value powers = (assigned ρ).value powers := by
  -- The two products have the same factors.
  show (powers.map _).prod = (powers.map _).prod
  congr 1
  refine List.map_congr_left fun p inside => ?_
  rw [Power.valueAt, Power.valueAt, agree p.id (admitted p inside).1]

end Assigned

end Clifford
