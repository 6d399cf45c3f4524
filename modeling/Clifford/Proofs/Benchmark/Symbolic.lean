import Clifford.Benchmark.Formula
import Clifford.Formula.Reduce
import Clifford.Proofs.Multivector.ConformalPoint
import Clifford.Proofs.Multivector.PolynomialValue

/-! Symbolic benchmarks: over leaves at any ids, the formulas reduce to the polynomials of their closed
forms. -/

namespace Clifford

open Finset Finsupp
open MvPolynomial (X)

section Coordinates

variable {R : Type} [CommRing R] [Module Rat R]

/-- The coordinates of a sphere: those of its center, with half the square of the radius taken off at
infinity. -/
def sphereCoordinates (k : Nat) (c : Nat → R) (r : R) (i : Nat) : R :=
  pointCoordinates k c i + if i = k + 1 then (-1 / 2 : Rat) • (r * r) else 0

/-- The inner product of the coordinates of a sphere and of a point is half of what the square of the
radius exceeds the square of the distance by. -/
theorem inner_sphereCoordinates (k : Nat) (c d : Nat → R) (r : R) :
    ∑ i ∈ range k, sphereCoordinates k c r i * pointCoordinates k d i -
        sphereCoordinates k c r k * pointCoordinates k d (k + 1) -
        sphereCoordinates k c r (k + 1) * pointCoordinates k d k =
      (1 / 2 : Rat) • (r * r - ∑ i ∈ range k, (c i - d i) * (c i - d i)) := by
  have kept {i : Nat} (other : i ≠ k + 1) : sphereCoordinates k c r i = pointCoordinates k c i := by
    rw [sphereCoordinates, if_neg other, add_zero]
  have others : ∑ i ∈ range k, sphereCoordinates k c r i * pointCoordinates k d i =
      ∑ i ∈ range k, pointCoordinates k c i * pointCoordinates k d i :=
    sum_congr rfl fun i inside => by rw [kept (by have := mem_range.mp inside; omega)]
  have infinity : sphereCoordinates k c r (k + 1) =
      pointCoordinates k c (k + 1) + (-1 / 2 : Rat) • (r * r) := by
    rw [sphereCoordinates, if_pos rfl]
  have origin : pointCoordinates k d k = 1 := by
    rw [pointCoordinates, if_neg (lt_irrefl k), if_pos rfl]
  -- The radius adds its part to the inner product with the center.
  have center := inner_pointCoordinates k c d
  rw [origin, mul_one] at center
  rw [others, kept (by omega), infinity, origin, mul_one, ← sub_sub, center]
  module

end Coordinates

namespace EntityKind

/-- The indeterminates of fields with consecutive ids. -/
noncomputable def indeterminates (id i : Nat) : MvPolynomial Nat Rat := X (id + i)

variable {id bound : Nat}

/-- The entries of a conformal point fit. -/
theorem fits_conformalEntries (inside : id + 3 ≤ bound) :
    ∀ e ∈ conformalEntries id, e.Fits 32 1 bound := by
  have one : Dyadic 1 1 := .one 1
  have half : Dyadic 1 (1 / 2) := ⟨1, by norm_num⟩
  have vectors : ∀ element ∈ [0b001, 0b010, 0b100], element < 32 := by decide
  intro e member
  -- The origin is a constant; every coordinate gives a linear entry and a square at infinity.
  rcases List.mem_cons.mp member with rfl | member
  · exact Entry.fits_constant (by decide) one
  · obtain ⟨row, given, member⟩ := List.mem_flatten.mp member
    obtain ⟨k, small, rfl⟩ := List.mem_mapIdx.mp given
    have small : k < 3 := small
    rcases List.mem_pair.mp member with rfl | rfl
    · exact Entry.fits_power (vectors _ (List.getElem_mem _)) one (.linear (by omega))
    · exact Entry.fits_power (by decide) half (.square (by omega))

/-- The total of the entries of a conformal point. -/
theorem total_conformalEntries (id : Nat) :
    weightedSum Reading.polynomial.weight (conformalEntries id) =
      vectorValue 5 (pointCoordinates 3 (indeterminates id)) := by
  -- A square stays on its blade, since values multiply by the rules of the blades.
  simp [conformalEntries, Reading.weight, vectorValue, sum_range_succ, pointCoordinates, indeterminates,
    originBlade, infinityBlade, Blade.vector_eq, -single_mul]
  abel

/-- The leaf of a conformal point is the vector with the coordinates of the point. -/
theorem exists_conformalPoint (inside : id + 3 ≤ bound) :
    ∃ a, conformalPoint.leaf id = .ok a ∧
      a.HasValue 32 1 bound (vectorValue 5 (pointCoordinates 3 (indeterminates id))) := by
  rw [← total_conformalEntries]
  exact Multivector.HasValue.exists_collate (by decide) (fits_conformalEntries inside)

/-- The leaf of a sphere is the vector with the coordinates of the sphere. -/
theorem exists_sphere (inside : id + 4 ≤ bound) :
    ∃ a, sphere.leaf id = .ok a ∧
      a.HasValue 32 1 bound (vectorValue 5 (sphereCoordinates 3 (indeterminates id) (X (id + 3)))) := by
  have total : weightedSum Reading.polynomial.weight
        (conformalEntries id ++ [Entry.of infinityBlade (-1 / 2) [⟨id + 3, 2⟩]]) =
      vectorValue 5 (sphereCoordinates 3 (indeterminates id) (X (id + 3))) := by
    rw [weightedSum_append, total_conformalEntries]
    simp [Reading.weight, vectorValue, sum_range_succ, sphereCoordinates, infinityBlade,
      Blade.vector_eq, -single_mul]
    abel
  -- The entries of the center fit as those of a point, and the radius adds a square.
  rw [← total]
  refine Multivector.HasValue.exists_collate (by decide) fun e member => ?_
  rcases List.mem_append.mp member with member | member
  · exact fits_conformalEntries (by omega) e member
  · obtain rfl := List.mem_singleton.mp member
    exact Entry.fits_power (by decide) ⟨-1, by norm_num⟩ (.square (by omega))

/-- The leaf of a plane is the vector with its fields as coordinates. -/
theorem exists_plane (inside : id + 4 ≤ bound) :
    ∃ a, plane.leaf id = .ok a ∧ a.HasValue 16 0 bound (vectorValue 4 (indeterminates id)) := by
  have total : weightedSum Reading.polynomial.weight
        (plane.elements.mapIdx fun k element => Entry.of element 1 [Power.linear (id + k)]) =
      vectorValue 4 (indeterminates id) := by
    simp [Reading.weight, vectorValue, sum_range_succ, indeterminates, Blade.vector_eq, elements]
    abel
  -- Every entry is linear in one field.
  rw [← total]
  refine Multivector.HasValue.exists_collate (by decide) fun e member => ?_
  obtain ⟨k, small, rfl⟩ := List.mem_mapIdx.mp member
  have small : k < 4 := small
  have vectors : ∀ element ∈ plane.elements, element < 16 := by decide
  exact Entry.fits_power (vectors _ (List.getElem_mem _)) (.one 0) (.linear (by omega))

/-- The leaf of a projective point has its fields on the trivectors with the null vector. -/
theorem exists_projectivePoint (inside : id + 3 ≤ bound) :
    ∃ a, projectivePoint.leaf id = .ok a ∧ a.HasValue 16 0 bound
      (single 0b0111 1 + single 0b1110 (-X id) + single 0b1101 (X (id + 1)) +
        single 0b1011 (-X (id + 2))) := by
  have total : weightedSum Reading.polynomial.weight
        [Entry.of pointWeight 1 [], Entry.of 0b1110 (-1) [Power.linear id],
          Entry.of 0b1101 1 [Power.linear (id + 1)], Entry.of 0b1011 (-1) [Power.linear (id + 2)]] =
      single 0b0111 1 + single 0b1110 (-X id) + single 0b1101 (X (id + 1)) +
        single 0b1011 (-X (id + 2)) := by
    simp [Reading.weight, pointWeight]
    abel
  -- The weight is a constant, and every other entry is linear in one field.
  rw [← total]
  refine Multivector.HasValue.exists_collate (by decide) fun e member => ?_
  simp only [List.mem_cons, List.not_mem_nil, or_false] at member
  have one : Dyadic 0 1 := .one 0
  rcases member with rfl | rfl | rfl | rfl
  · exact Entry.fits_constant (by decide) one
  · exact Entry.fits_power (by decide) one.neg (.linear (by omega))
  · exact Entry.fits_power (by decide) one (.linear (by omega))
  · exact Entry.fits_power (by decide) one.neg (.linear (by omega))

end EntityKind

namespace Benchmark

variable {A : Algebra} {l r : Multivector} {bound : Nat}

/-- The exterior product of two leaves is that of their values. -/
theorem reduce_wedge (A : Algebra) (l r : Multivector) :
    Expr.reduce A [l, r] (.wedge (.leaf 0) (.leaf 1)) = A.wedge l r := by
  rw [Expr.wedge, Expr.reduce]
  -- The product of two operands is a single step of the fold over them.
  show [r].foldlM (VariadicOp.combine .wedge A) l = _
  rw [List.foldlM_cons, VariadicOp.combine]
  cases A.wedge l r <;> rfl

/-- The scalar product of two leaves is that of their values. -/
theorem reduce_scalarProduct (A : Algebra) (l r : Multivector) :
    Expr.reduce A [l, r] (.scalarProduct (.leaf 0) (.leaf 1)) = A.scalarProduct l r := by
  simp [Expr.scalarProduct, Expr.reduce, BinaryOp.apply, Algebra.scalarProduct]

/-- A vector and a trivector of the projective space have an exterior product where they share nothing. -/
theorem exterior_trivector : ∀ v ∈ [0b0001, 0b0010, 0b0100, 0b1000],
    ∀ t ∈ [0b0111, 0b1110, 0b1101, 0b1011],
      BladeProduct.exterior.coefficient ⟨3, 0, 1, by decide⟩ v t =
        if v &&& t ≠ 0 then 0 else if v = 0b0001 ∨ v = 0b0100 then 1 else -1 := by
  decide +kernel

/-- The exterior product of a plane and a point over their coordinates. -/
theorem clifford_incidence (c : Nat → MvPolynomial Nat Rat) (w x y z : MvPolynomial Nat Rat) :
    Reading.polynomial.clifford .exterior (.diagonal ⟨3, 0, 1, by decide⟩) (vectorValue 4 c)
        (single 0b0111 w + single 0b1110 (-x) + single 0b1101 y + single 0b1011 (-z)) =
      single 0b1111 (-(c 0 * x + c 1 * y + c 2 * z + c 3 * w)) := by
  have table (v) (vector : v ∈ _) (t) (trivector : t ∈ _) := exterior_trivector v vector t trivector
  -- Only the trivector that a vector is missing from meets it, so four of the sixteen products remain.
  refine (Metric.clifford_base (m := .diagonal ⟨3, 0, 1, by decide⟩) _ _ _).trans ?_
  simp [vectorValue, sum_range_succ, Reading.twisted_single, table, Blade.vector_eq, Metric.signature,
    Reading.polynomial]
  abel

/-- The incidence of a plane and a point over leaves at any ids. -/
theorem exists_incidence (made : planePointIncidence.algebra = .ok A) (i j : Nat) :
    ∃ l r c, EntityKind.plane.leaf i = .ok l ∧ EntityKind.projectivePoint.leaf j = .ok r ∧
      A.wedge l r = .ok c ∧ c.HasValue A.dim 3 (max (i + 4) (j + 3)) (single 0b1111
        (-(X i * X j + X (i + 1) * X (j + 1) + X (i + 2) * X (j + 2) + X (i + 3)))) := by
  obtain rfl : A = { metric := .diagonal ⟨3, 0, 1, by decide⟩ } := Except.ok.inj made.symm
  obtain ⟨l, left, hasLeft⟩ := EntityKind.exists_plane (le_max_left (i + 4) (j + 3))
  obtain ⟨r, right, hasRight⟩ := EntityKind.exists_projectivePoint (le_max_right (i + 4) (j + 3))
  -- Both leaves fit the same bound on ids, so that their product does.
  obtain ⟨c, product, hasProduct⟩ := Multivector.HasValue.exists_product .exterior
    (m := .diagonal ⟨3, 0, 1, by decide⟩) hasLeft hasRight (by decide)
  rw [clifford_incidence] at hasProduct
  simp only [EntityKind.indeterminates, add_zero, mul_one] at hasProduct
  exact ⟨l, r, c, left, right, product, hasProduct⟩

/-- The scalar product of two vectors of the conformal algebra of space. -/
theorem exists_scalarProduct (made : Algebra.conformal 3 = .ok A) {c d : Nat → MvPolynomial Nat Rat}
    (left : l.HasValue 32 1 bound (vectorValue 5 c)) (right : r.HasValue 32 1 bound (vectorValue 5 d)) :
    ∃ s, A.scalarProduct l r = .ok s ∧ (∀ e ∈ s.elements, e = 0) ∧
      s.HasValue A.dim 5 bound
        (single 0 (∑ i ∈ range 3, c i * d i - c 3 * d 4 - c 4 * d 3)) := by
  -- The algebra has the metric of five vectors with the last two null.
  obtain ⟨k, three, -, isNull, low, vectors⟩ := Algebra.conformal_spec made
  obtain rfl : k = 3 := by omega
  have vectors : A.metric.n = 5 := vectors
  have dim : A.metric.dim = 32 := by rw [A.metric.dim_eq_two_pow, vectors]; rfl
  have pair := Metric.pair_eq isNull.marked
  -- The inner product of vectors is scalar already, so its projection has the same value.
  obtain ⟨p, product, hasProduct⟩ := Multivector.HasValue.exists_product .symmetricInner
    (m := A.metric) (dim ▸ left) (dim ▸ right) (by decide)
  obtain ⟨s, part, scalar, hasPart⟩ := hasProduct.exists_extract (by decide) 0
  refine ⟨s, by rw [Algebra.scalarProduct, Algebra.inner, product, Result.ok_bind, part], scalar, ?_⟩
  rw [← vectors, isNull.clifford_inner, ← pair.1, low, single_eq_same] at hasPart
  exact hasPart

/-- The square of the distance of two points of space over their indeterminates. -/
theorem sum_squares (i j : Nat) :
    ∑ k ∈ range 3, (EntityKind.indeterminates i k - EntityKind.indeterminates j k) *
        (EntityKind.indeterminates i k - EntityKind.indeterminates j k) =
      (X i - X j) ^ 2 + (X (i + 1) - X (j + 1)) ^ 2 + (X (i + 2) - X (j + 2)) ^ 2 := by
  simp only [sum_range_succ, sum_range_zero, EntityKind.indeterminates, add_zero]
  ring

/-- The power of a point with respect to a sphere over leaves at any ids. -/
theorem exists_power (made : Algebra.conformal 3 = .ok A) (i j : Nat) :
    ∃ l r s, EntityKind.sphere.leaf i = .ok l ∧ EntityKind.conformalPoint.leaf j = .ok r ∧
      A.scalarProduct l r = .ok s ∧ s.HasValue A.dim 5 (max (i + 4) (j + 3)) (single 0
        ((1 / 2 : Rat) • (X (i + 3) ^ 2 - ((X i - X j) ^ 2 + (X (i + 1) - X (j + 1)) ^ 2 +
          (X (i + 2) - X (j + 2)) ^ 2)))) := by
  obtain ⟨l, left, hasLeft⟩ := EntityKind.exists_sphere (le_max_left (i + 4) (j + 3))
  obtain ⟨r, right, hasRight⟩ := EntityKind.exists_conformalPoint (le_max_right (i + 4) (j + 3))
  obtain ⟨s, product, -, hasProduct⟩ := exists_scalarProduct made hasLeft hasRight
  refine ⟨l, r, s, left, right, product, ?_⟩
  -- The inner product of the coordinates is rewritten to its closed form.
  have closed := inner_sphereCoordinates 3 (EntityKind.indeterminates i) (EntityKind.indeterminates j)
    (X (i + 3))
  rw [closed, sum_squares, ← pow_two] at hasProduct
  exact hasProduct

/-- What the distance of two points takes the root of, over leaves at any ids. -/
theorem exists_squaredDistance (made : Algebra.conformal 3 = .ok A) (i j : Nat) :
    ∃ l r s d, EntityKind.conformalPoint.leaf i = .ok l ∧ EntityKind.conformalPoint.leaf j = .ok r ∧
      A.scalarProduct l r = .ok s ∧ s.scale (-2) = .ok d ∧ (∀ e ∈ d.elements, e = 0) ∧
      d.HasValue A.dim 5 (max (i + 3) (j + 3)) (single 0 ((X i - X j) ^ 2 +
        (X (i + 1) - X (j + 1)) ^ 2 + (X (i + 2) - X (j + 2)) ^ 2)) := by
  obtain ⟨l, left, hasLeft⟩ := EntityKind.exists_conformalPoint (le_max_left (i + 3) (j + 3))
  obtain ⟨r, right, hasRight⟩ := EntityKind.exists_conformalPoint (le_max_right (i + 3) (j + 3))
  obtain ⟨s, product, scalar, hasProduct⟩ := exists_scalarProduct made hasLeft hasRight
  obtain ⟨d, scaled, elements, hasMultiple⟩ := hasProduct.exists_scale (by decide) (q := -2)
    ⟨-2, by norm_num⟩ (by norm_num) (by norm_num)
  refine ⟨l, r, s, d, left, right, product, scaled, elements ▸ scalar, ?_⟩
  -- The multiplier takes the sign and the half of the inner product away.
  have closed := inner_pointCoordinates 3 (EntityKind.indeterminates i) (EntityKind.indeterminates j)
  rw [closed, sum_squares, smul_single, smul_smul, show (-2 : Rat) * (-1 / 2) = 1 by norm_num,
    one_smul] at hasMultiple
  exact hasMultiple

end Benchmark

end Clifford
