import Clifford.Proofs.Multivector.Assignment

/-! Products of dense vectors as twisted products: they are bilinear, the exterior product is
associative, and over an orthogonal basis they are the products of values. -/

namespace Clifford

open Finsupp

namespace Dense

variable {dim : Nat} {m : Metric} {kind : BladeProduct}

/-- The coefficients of a vector on the blades of a space. -/
noncomputable def within (dim : Nat) (x : Dense) : Nat →₀ Rat :=
  ∑ i ∈ Finset.range dim, single i (x i)

/-- The coefficients on the blades of a space are kept, and all others dropped. -/
theorem within_apply (x : Dense) (b : Nat) : within dim x b = if b < dim then x b else 0 := by
  -- At most one of the summands lies on the blade.
  simp only [within, Finsupp.finsetSum_apply, single_apply]
  rw [Finset.sum_ite_eq']
  simp

/-- A function of the blade that vanishes outside of a space is its part in the space. -/
theorem within_eq {x : Nat →₀ Rat} (bounded : ∀ b, x b ≠ 0 → b < dim) : within dim x = x := by
  ext b
  rw [within_apply]
  split
  · rfl
  · rename_i outside
    exact (not_ne_iff.mp (mt (bounded b) outside)).symm

/-- The dense product of vectors over an orthogonal basis is the twisted product of their parts in
the space. -/
theorem product_eq_twisted (diagonal : m.isDiagonal = true) (ρ : Nat → Rat) (x y : Dense) :
    product kind m x y = (Reading.assigned ρ).twisted (kind.coefficient m.signature)
      (within m.dim x) (within m.dim y) := by
  -- Both sides are sums over all pairs of blades, so that one pair is enough.
  obtain ⟨s, rfl⟩ := Metric.exists_diagonal diagonal
  have power := (Metric.diagonal s).dim_eq_two_pow
  funext target
  simp only [product, within, map_sum, LinearMap.sum_apply, Finsupp.finsetSum_apply]
  rw [Finset.sum_comm]
  refine Finset.sum_congr rfl fun j right => Finset.sum_congr rfl fun i left => ?_
  have lower : i < 2 ^ s.n := power ▸ Finset.mem_range.mp left
  have upper : j < 2 ^ s.n := power ▸ Finset.mem_range.mp right
  rw [kind.compute_diagonal s lower upper, Reading.twisted_single]
  by_cases zero : kind.coefficient s i j = 0
  · -- A coefficient of zero leaves nothing on either side.
    simp [zero, BladeProduct.weighted, Metric.signature]
  · simp only [BladeProduct.weighted, if_neg zero, Finsupp.smul_apply, single_apply, smul_eq_mul,
      mul_ite, mul_zero]
    rfl

/-- Products of vectors lie in the space. -/
theorem product_bounded (diagonal : m.isDiagonal = true) (x y : Dense) {b : Nat}
    (nonzero : product kind m x y b ≠ 0) : b < m.dim := by
  -- Some pair of blades of the space contributes to the coefficient.
  obtain ⟨s, rfl⟩ := Metric.exists_diagonal diagonal
  have power := (Metric.diagonal s).dim_eq_two_pow
  obtain ⟨i, left, inner⟩ := Finset.exists_ne_zero_of_sum_ne_zero nonzero
  obtain ⟨j, right, term⟩ := Finset.exists_ne_zero_of_sum_ne_zero inner
  rw [Finset.mem_range] at left right
  have onTarget := (ite_ne_right_iff.mp term).1
  have factor := (ite_ne_right_iff.mp term).2
  rw [kind.compute_diagonal s (power ▸ left) (power ▸ right), BladeProduct.weighted] at onTarget factor
  dsimp only at onTarget factor
  have unit : kind.coefficient s i j ≠ 0 := fun zero => by simp [zero] at factor
  rw [if_neg unit] at onTarget
  exact onTarget ▸ Metric.xor_lt_dim (.diagonal s) left right

/-- The part of a product in the space is the twisted product. -/
theorem within_product (diagonal : m.isDiagonal = true) (ρ : Nat → Rat) (x y : Dense) :
    within m.dim (product kind m x y) =
      (Reading.assigned ρ).twisted (kind.coefficient m.signature) (within m.dim x)
        (within m.dim y) := by
  -- Nothing of the product lies outside of the space.
  rw [product_eq_twisted diagonal ρ]
  refine within_eq fun b nonzero => ?_
  rw [← product_eq_twisted diagonal ρ] at nonzero
  exact product_bounded diagonal x y nonzero

/-- Over an orthogonal basis the product of values on the blades of a space is their dense product. -/
theorem clifford_eq_product (diagonal : m.isDiagonal = true) (ρ : Nat → Rat) {x y : Nat →₀ Rat}
    (left : ∀ b, x b ≠ 0 → b < m.dim) (right : ∀ b, y b ≠ 0 → b < m.dim) :
    (Reading.assigned ρ).clifford kind m x y = product kind m x y := by
  -- There is no change of basis, and nothing outside of the space to drop.
  obtain ⟨toDiagonal, toWorking⟩ := Metric.matrices_of_diagonal diagonal
  rw [product_eq_twisted diagonal ρ, within_eq left, within_eq right, Reading.clifford_apply,
    Metric.framed, Metric.unframed, toDiagonal, toWorking, Metric.frame_identity,
    Metric.frame_identity, Metric.frame_identity]

/-- Associative products of blades are associative on vectors over an orthogonal basis. -/
theorem product_assoc (diagonal : m.isDiagonal = true) (associative : kind.Associative)
    (x y z : Dense) :
    product kind m (product kind m x y) z = product kind m x (product kind m y z) := by
  -- The law of the structure coefficients carries over to twisted products.
  have law := Reading.twisted_assoc (r := Reading.assigned 0)
    (fun x y z : Rat => mul_assoc x y z)
    (BladeProduct.coefficient_cocycle associative m.signature)
  calc product kind m (product kind m x y) z
    _ = (Reading.assigned 0).twisted (kind.coefficient m.signature)
          (within m.dim (product kind m x y)) (within m.dim z) := product_eq_twisted diagonal 0 _ _
    _ = (Reading.assigned 0).twisted (kind.coefficient m.signature)
          (within m.dim x) (within m.dim (product kind m y z)) := by
      rw [within_product diagonal 0, within_product diagonal 0, law]
    _ = product kind m x (product kind m y z) := (product_eq_twisted diagonal 0 _ _).symm

/-- A single value of a function is a number on one blade. -/
theorem coe_single (blade : Nat) (q : Rat) : (single blade q : Nat →₀ Rat) = onBlade blade q := by
  -- Both are the number on its blade and zero elsewhere.
  funext b
  simp [onBlade, single_apply, eq_comm]

/-- The dual of a sum is the sum of the duals. -/
theorem dual_add (n : Nat) (x y : Dense) : dual n dim (x + y) = dual n dim x + dual n dim y := by
  -- Each summand is linear in the coefficients.
  funext target
  simp only [dual, Pi.add_apply, ← Finset.sum_add_distrib]
  refine Finset.sum_congr rfl fun i _ => ?_
  split
  · ring
  · simp

/-- The dual of a number on a blade lies on the complement. -/
theorem dual_onBlade (n : Nat) {blade : Nat} (inside : blade < dim) (q : Rat) :
    dual n dim (onBlade blade q) =
      onBlade (Blade.complement blade n).1 ((Blade.complement blade n).2 * q) := by
  -- Only the summand of the blade itself is left.
  funext target
  rw [dual, Finset.sum_eq_single blade]
  · simp [onBlade, eq_comm]
  · intro i _ other
    simp [onBlade, other]
  · intro outside
    exact absurd (Finset.mem_range.mpr inside) outside

/-- A number passes out of the left factor of a product. -/
theorem smul_product (q : Rat) (x y : Dense) :
    product kind m (q • x) y = q • product kind m x y := by
  -- Each summand has one coefficient of the left factor.
  funext target
  simp only [product, Pi.smul_apply, smul_eq_mul, Finset.mul_sum, mul_ite, mul_zero]
  refine Finset.sum_congr rfl fun i _ => Finset.sum_congr rfl fun j _ => ?_
  congr 1
  ring

/-- A number passes out of the right factor of a product. -/
theorem product_smul (q : Rat) (x y : Dense) :
    product kind m x (q • y) = q • product kind m x y := by
  -- Each summand has one coefficient of the right factor.
  funext target
  simp only [product, Pi.smul_apply, smul_eq_mul, Finset.mul_sum, mul_ite, mul_zero]
  refine Finset.sum_congr rfl fun i _ => Finset.sum_congr rfl fun j _ => ?_
  congr 1
  ring

/-- Products with zero vanish. -/
theorem zero_product (y : Dense) : product kind m 0 y = 0 := by
  simpa using @smul_product m kind 0 0 y

/-- Products with zero vanish. -/
theorem product_zero (x : Dense) : product kind m x 0 = 0 := by
  simpa using @product_smul m kind 0 x 0

end Dense

end Clifford
