import Clifford.Proofs.Metric.Walk

/-! Structure coefficients: every product of blades is the part of one twisted product that it
keeps, and the geometric and the exterior product are associative. -/

namespace Clifford.Metric

variable {m : Metric}

/-- A space has a blade for every set of basis vectors. -/
theorem dim_eq_two_pow (m : Metric) : m.dim = 2 ^ m.n := Nat.one_shiftLeft _

/-- Every space has the scalar blade. -/
theorem dim_pos (m : Metric) : 0 < m.dim := m.dim_eq_two_pow ▸ Nat.two_pow_pos _

/-- Blades of a space multiply to a blade of the space. -/
theorem xor_lt_dim (m : Metric) {a b : Nat} (left : a < m.dim) (right : b < m.dim) :
    a ^^^ b < m.dim := by
  rw [m.dim_eq_two_pow] at left right ⊢
  exact Nat.xor_lt_two_pow left right

/-- A metric over an orthogonal basis is given by its signature. -/
theorem exists_diagonal (diagonal : m.isDiagonal = true) : ∃ s, m = .diagonal s := by
  cases m with
  | diagonal s => exact ⟨s, rfl⟩
  | _ => simp [isDiagonal] at diagonal

end Clifford.Metric

namespace Clifford.BladeProduct

open Blade Clifford.Metric

/-- Whether a product keeps the blades that two blades twist to. -/
def keeps (kind : BladeProduct) (a b : Nat) : Bool :=
  match kind with
  | geometric => true
  | exterior => a &&& b = 0
  | contract => a &&& b = a
  | symmetricInner => a ≠ 0 ∧ b ≠ 0 ∧ (a &&& b = a ∨ b &&& a = b)

/-- The factor of the product of two blades over an orthogonal basis. -/
def coefficient (kind : BladeProduct) (s : Signature) (a b : Nat) : Int :=
  if kind.keeps a b then twist (squares s) s.n a b else 0

/-- A product has the structure coefficients of the geometric product on the blades that it keeps. -/
theorem coefficient_of_keeps {kind : BladeProduct} {s : Signature} {a b : Nat}
    (kept : kind.keeps a b = true) : kind.coefficient s a b = geometric.coefficient s a b := by
  rw [coefficient, if_pos kept]
  rfl

/-- A product has no structure coefficients on the other blades. -/
theorem coefficient_of_not_keeps {kind : BladeProduct} {s : Signature} {a b : Nat}
    (kept : ¬kind.keeps a b = true) : kind.coefficient s a b = 0 := by
  rw [coefficient, if_neg kept]

/-- The geometric product of two blades, of any width. -/
theorem geometricProduct_eq (s : Signature) {n a : Nat} (bounded : a < 2 ^ n) (b : Nat) :
    geometricProduct (.diagonal s) a b = weighted (a ^^^ b) (twist (squares s) n a b) := by
  -- The walk is left out where a factor is the scalar blade, which changes nothing.
  unfold geometricProduct
  split
  · rename_i empty
    simp [empty, weighted]
  · split
    · rename_i empty
      simp [empty, weighted]
    · rw [signed_geometricWalk s a b 0 bounded]
      simp [swapSign]

/-- A blade that has more vectors than another one does not lie within it. -/
theorem not_within {n a b : Nat} (left : a < 2 ^ n) (right : b < 2 ^ n)
    (more : grade b < grade a) : a &&& b ≠ a := by
  intro within
  -- Nothing of the blade is missing in the other one, which then has at least its grade.
  have none := (missing_eq_zero left b).mpr within
  have leftGrade := grade_eq_add left b
  have rightGrade := grade_eq_add right a
  rw [Nat.and_comm] at rightGrade
  omega

/-- The grade of a product is the gap between the grades when one blade lies within the other. -/
theorem grade_xor_eq_gap {n a b : Nat} (left : a < 2 ^ n) (right : b < 2 ^ n) :
    grade (a ^^^ b) = (grade a - grade b) + (grade b - grade a) ↔
      a &&& b = a ∨ b &&& a = b := by
  -- The symmetric difference is made of what either blade lacks of the other one.
  rw [← missing_eq_zero left, ← missing_eq_zero right, grade_xor left right,
    grade_eq_add left b, grade_eq_add right a, Nat.and_comm b a]
  omega

/-- The product of two blades is their symmetric difference with the structure coefficient. -/
theorem compute_diagonal (kind : BladeProduct) (s : Signature) {a b : Nat}
    (left : a < 2 ^ s.n) (right : b < 2 ^ s.n) :
    kind.compute (.diagonal s) a b = weighted (a ^^^ b) (kind.coefficient s a b) := by
  unfold coefficient
  cases kind with
  | geometric =>
    simp only [compute, keeps]
    exact geometricProduct_eq s left b
  | exterior =>
    simp only [compute, keeps, decide_eq_true_eq]
    -- Blades with a common vector are refused before the walk.
    by_cases disjoint : a &&& b = 0
    · simp only [disjoint, ne_eq, not_true_eq_false, if_false, if_true]
      rw [signed_exteriorWalk (squares s) a b 0 left disjoint]
      simp [swapSign]
    · simp [disjoint, weighted]
  | contract =>
    simp only [compute, keeps, decide_eq_true_eq]
    split
    · rename_i empty
      simp [empty, weighted]
    · split
      · -- Blades with more vectors are refused before the walk, and do not lie within the other one.
        rename_i more
        rw [if_neg (not_within left right more)]
        simp [weighted]
      · rw [signed_contractWalk s a b 0 left]
        simp [swapSign]
  | symmetricInner =>
    simp only [compute, keeps, decide_eq_true_eq]
    -- The inner product leaves out scalars, and then keeps what has the gap of the grades as its
    -- grade.
    by_cases empty : a = 0 ∨ b = 0
    · have : ¬ (a ≠ 0 ∧ b ≠ 0 ∧ (a &&& b = a ∨ b &&& a = b)) := by tauto
      rw [if_pos empty, if_neg this]
      simp [weighted]
    · rw [if_neg empty, geometricProduct_eq s left b]
      have gap := grade_xor_eq_gap left right
      unfold weighted
      by_cases null : twist (squares s) s.n a b = 0
      · simp [null]
      · by_cases within : a &&& b = a ∨ b &&& a = b
        · have : a ≠ 0 ∧ b ≠ 0 ∧ (a &&& b = a ∨ b &&& a = b) := by tauto
          rw [if_pos this]
          simp [null, gap.mpr within]
        · have : ¬ (a ≠ 0 ∧ b ≠ 0 ∧ (a &&& b = a ∨ b &&& a = b)) := by tauto
          rw [if_neg this]
          simp [null, mt gap.mp within]

/-- Two ways to multiply three blades, `inner` and then `outer` from the left and `inner'` and then
`outer'` from the right, that keep the same blades. -/
def Regroups (inner outer inner' outer' : BladeProduct) : Prop :=
  ∀ a b c, (inner.keeps a b = true ∧ outer.keeps (a ^^^ b) c = true) ↔
    (inner'.keeps b c = true ∧ outer'.keeps a (b ^^^ c) = true)

/-- Ways to multiply three blades that keep the same ones have the same structure coefficients. -/
theorem coefficient_regroup {inner outer inner' outer' : BladeProduct}
    (law : Regroups inner outer inner' outer') (s : Signature) (a b c : Nat) :
    inner.coefficient s a b * outer.coefficient s (a ^^^ b) c =
      inner'.coefficient s b c * outer'.coefficient s a (b ^^^ c) := by
  have kept := law a b c
  by_cases both : inner.keeps a b = true ∧ outer.keeps (a ^^^ b) c = true
  · have other := kept.mp both
    rw [coefficient, coefficient, coefficient, coefficient, if_pos both.1, if_pos both.2,
      if_pos other.1, if_pos other.2, Blade.twist_cocycle]
  · have other := mt kept.mpr both
    -- On either side one of the products drops the blades, which makes its factor zero.
    have zero {p q : Prop} [Decidable p] [Decidable q] (x y : Int) (dropped : ¬ (p ∧ q)) :
        (if p then x else 0) * (if q then y else 0) = 0 := by
      split
      · rw [if_neg fun holds => dropped ⟨‹p›, holds⟩, mul_zero]
      · rw [zero_mul]
    rw [coefficient, coefficient, coefficient, coefficient, zero _ _ both, zero _ _ other]

/-- The products that are associative. -/
def Associative (kind : BladeProduct) : Prop := kind = geometric ∨ kind = exterior

/-- Associative products keep the same blades in either grouping. -/
theorem Associative.regroups {kind : BladeProduct} (associative : kind.Associative) :
    Regroups kind kind kind kind := by
  intro a b c
  -- The geometric product keeps everything, and the exterior one keeps disjoint blades.
  rcases associative with rfl | rfl
  · simp [keeps]
  · simpa only [keeps, decide_eq_true_eq] using Blade.disjoint_cocycle a b c

/-- Contracting by an exterior product contracts by its second factor and then by the first. -/
theorem regroups_contract : Regroups exterior contract contract contract := by
  intro a b c
  simpa only [keeps, decide_eq_true_eq] using Blade.within_cocycle a b c

/-- The cocycle law of the structure coefficients of an associative product. -/
theorem coefficient_cocycle {kind : BladeProduct} (associative : kind.Associative) (s : Signature)
    (a b c : Nat) :
    kind.coefficient s a b * kind.coefficient s (a ^^^ b) c =
      kind.coefficient s b c * kind.coefficient s a (b ^^^ c) :=
  coefficient_regroup associative.regroups s a b c

/-- The scalar blade is neutral for the structure coefficients of an associative product. -/
theorem coefficient_unit {kind : BladeProduct} (associative : kind.Associative) (s : Signature)
    (a : Nat) : kind.coefficient s 0 a = 1 ∧ kind.coefficient s a 0 = 1 := by
  rcases associative with rfl | rfl <;> simp [coefficient, keeps]

end Clifford.BladeProduct
