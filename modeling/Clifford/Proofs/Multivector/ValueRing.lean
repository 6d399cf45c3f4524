import Clifford.Proofs.Multivector.GradePart
import Clifford.Proofs.Multivector.Reversal

/-! The ring of values: Laurent polynomials on the blades under the geometric product, where scalars
commute with everything and vectors anticommute up to a scalar. -/

namespace Clifford

open Finsupp

namespace Blade

/-- Different vectors anticommute. -/
theorem twist_vectors (square : Nat → Int) {n a b : Nat} (left : a < 2 ^ n) (right : b < 2 ^ n)
    (first : grade a = 1) (second : grade b = 1) (apart : a ≠ b) :
    twist square n a b + twist square n b a = 0 := by
  -- A vector that shares something with a vector is that vector.
  have disjoint : a &&& b = 0 := (within_or_apart first b).resolve_left fun within => by
    have total := grade_xor_add a b
    rw [within, first, second] at total
    exact apart (Nat.xor_eq_zero_iff.mp (grade_eq_zero.mp (by omega)))
  have total := grade_xor_add a b
  rw [disjoint, first, second, grade_eq_zero.mpr rfl] at total
  have whole := reversionSign_twist square left right
  -- The reversal of a blade of two vectors changes its sign.
  have double : grade (a ^^^ b) = 2 := by omega
  simp only [reversionSign, first, second, double] at whole
  have minus : swapSign (2 * (2 - 1) / 2) = -1 := by decide
  have plus : swapSign (1 * (1 - 1) / 2) = 1 := by decide
  rw [minus, plus] at whole
  omega

end Blade

namespace Reading

variable {M : Type} [AddCommGroup M] [Module Rat M] {r : Reading M} {m : Metric} {x y : Nat →₀ M}

section Commutative

variable (commutative : ∀ u v, r.mul u v = r.mul v u)

include commutative

/-- Scalars commute with every value. -/
theorem clifford_comm_scalar (z : M) (x : Nat →₀ M) :
    r.clifford .geometric m (single 0 z) x = r.clifford .geometric m x (single 0 z) := by
  -- A scalar multiplies every single blade alike from either side.
  induction x using Finsupp.induction_linear with
  | zero => simp
  | add x y left right => rw [map_add, map_add, left, right, LinearMap.add_apply]
  | single blade u => rw [scalar_clifford, clifford_scalar, commutative]

/-- Single vectors of the orthogonal basis anticommute up to a scalar. -/
theorem twisted_anticommute_single {a b : Nat} (insideA : a < m.dim) (insideB : b < m.dim)
    (first : Blade.grade a = 1) (second : Blade.grade b = 1) (u v : M) :
    ∃ z, r.twisted (BladeProduct.geometric.coefficient m.signature) (single a u) (single b v) +
      r.twisted (BladeProduct.geometric.coefficient m.signature) (single b v) (single a u) =
        single 0 z := by
  simp only [r.twisted_single, commutative v u, Nat.xor_comm b a, ← add_smul]
  -- A vector has a square, and different vectors cancel in the two orders.
  by_cases same : a = b
  · exact ⟨_, by rw [same, Nat.xor_self, smul_single]⟩
  · rw [m.dim_eq_two_pow] at insideA insideB
    have opposite := Blade.twist_vectors (Metric.squares m.signature) insideA insideB first second same
    refine ⟨0, ?_⟩
    rw [← Int.cast_add, BladeProduct.coefficient, BladeProduct.coefficient, if_pos (by rfl),
      if_pos (by rfl), show m.signature.n = m.n from rfl, opposite, Int.cast_zero, zero_smul, single_zero]

/-- Over the orthogonal basis vectors anticommute up to a scalar. -/
theorem twisted_anticommute (left : x ∈ spaceValues M m.dim) (right : y ∈ spaceValues M m.dim) :
    ∃ z, r.twisted (BladeProduct.geometric.coefficient m.signature) (gradeValue 1 x) (gradeValue 1 y) +
      r.twisted (BladeProduct.geometric.coefficient m.signature) (gradeValue 1 y) (gradeValue 1 x) =
        single 0 z := by
  set product := r.twisted (BladeProduct.geometric.coefficient m.signature)
  -- The anticommutator is linear in both vectors, and the scalars are the range of a linear map.
  have scalar : (product + product.flip).compl₁₂ (gradeValue 1) (gradeValue 1) x y ∈
      LinearMap.range (lsingle 0 : M →ₗ[Rat] Nat →₀ M) := by
    refine map₂_mem_of_single (fun a insideA u b insideB v => ?_) left right
    rw [LinearMap.compl₁₂_apply, gradeValue, bladewise_single, bladewise_single]
    by_cases vectors : Blade.grade a = 1 ∧ Blade.grade b = 1
    · obtain ⟨first, second⟩ := vectors
      obtain ⟨z, same⟩ := twisted_anticommute_single commutative insideA insideB first second u v
      rw [if_pos first, if_pos second, one_smul, one_smul]
      exact ⟨z, same.symm⟩
    · -- A blade that is not a vector has no part of grade one.
      rcases not_and_or.mp vectors with other | other <;> simp [other]
  obtain ⟨z, same⟩ := scalar
  exact ⟨z, same.symm⟩

/-- Vectors anticommute up to a scalar. -/
theorem clifford_anticommute (left : x ∈ spaceValues M m.dim) (right : y ∈ spaceValues M m.dim)
    (first : gradeValue 1 x = x) (second : gradeValue 1 y = y) :
    ∃ z, r.clifford .geometric m x y + r.clifford .geometric m y x = single 0 z := by
  -- The changes of basis take vectors to vectors and keep scalars.
  have framed {x : Nat →₀ M} (vector : gradeValue 1 x = x) :
      gradeValue 1 (m.framed x) = m.framed x := by
    conv_rhs => rw [← vector]
    exact (Metric.frame_bladewise (gradewise_gradeValue 1) x).symm
  obtain ⟨z, scalar⟩ := twisted_anticommute commutative (Metric.framed_mem left)
    (Metric.framed_mem right)
  refine ⟨z, ?_⟩
  rw [framed first, framed second] at scalar
  rw [clifford_apply, clifford_apply, ← map_add, scalar, ← m.framed_scalar z,
    Metric.unframed_framed, m.framed_scalar]

/-- The square of a vector is a scalar. -/
theorem clifford_square (left : x ∈ spaceValues M m.dim) (first : gradeValue 1 x = x) :
    ∃ z, r.clifford .geometric m x x = single 0 z := by
  -- A vector anticommutes with itself to twice its square.
  obtain ⟨z, twice⟩ := clifford_anticommute (r := r) commutative left left first first
  refine ⟨(1 / 2 : Rat) • z, ?_⟩
  rw [← smul_single, ← twice]
  module

end Commutative

/-- The parts of one grade of a multiple by a scalar are the multiples of the parts. -/
theorem gradeValue_scalar (k : Nat) (z : M) (x : Nat →₀ M) :
    gradeValue k (r.clifford .geometric m (single 0 z) x) =
      r.clifford .geometric m (single 0 z) (gradeValue k x) := by
  -- A scalar leaves every blade in its place.
  induction x using Finsupp.induction_linear with
  | zero => simp
  | add x y left right => rw [map_add, map_add, map_add, map_add, left, right]
  | single blade u =>
    rw [scalar_clifford, gradeValue, bladewise_single, bladewise_single, map_smul, scalar_clifford]

/-- Vectors are their own reversals. -/
theorem reversal_vector (vector : gradeValue 1 x = x) : reversal x = x := by
  -- A blade of grade one has the sign one, and all other blades have no part.
  have signs : (fun e => (Blade.reversionSign e : Rat) * if Blade.grade e = 1 then 1 else 0) =
      fun e => if Blade.grade e = 1 then 1 else 0 := by
    funext e
    split
    · rename_i single
      rw [Blade.reversionSign, single]
      norm_num [Blade.swapSign]
    · rw [mul_zero]
  rw [← vector, reversal, gradeValue, bladewise_bladewise, signs]

end Reading

/-- The values of multivectors over a metric, which multiply geometrically. -/
def CliffordValue (_ : Metric) : Type := Nat →₀ ((Nat →₀ Rat) →₀ Rat)

namespace CliffordValue

variable {m : Metric}

noncomputable instance : AddCommGroup (CliffordValue m) :=
  inferInstanceAs (AddCommGroup (Nat →₀ ((Nat →₀ Rat) →₀ Rat)))

noncomputable instance : Ring (CliffordValue m) where
  __ := (inferInstance : AddCommGroup (CliffordValue m))
  mul x y := Reading.laurent.clifford .geometric m x y
  one := single 0 (single 0 1)
  left_distrib x := map_add (Reading.laurent.clifford .geometric m x)
  right_distrib := LinearMap.map_add₂ (Reading.laurent.clifford .geometric m)
  zero_mul := LinearMap.map_zero₂ (Reading.laurent.clifford .geometric m)
  mul_zero x := map_zero (Reading.laurent.clifford .geometric m x)
  mul_assoc := Reading.laurent_clifford_assoc (.inl rfl) m
  one_mul := Reading.laurent_one_clifford (.inl rfl) m
  mul_one := Reading.laurent_clifford_one (.inl rfl) m

/-- The product of the ring is the geometric product of values. -/
theorem mul_def (x y : CliffordValue m) : x * y = Reading.laurent.clifford .geometric m x y := rfl

/-- The values on the scalar blade alone. -/
def IsScalar (x : CliffordValue m) : Prop := ∃ z, x = single 0 z

/-- The values of a space that lie on single vectors alone. -/
structure IsVector (x : CliffordValue m) : Prop where
  inSpace : x ∈ spaceValues ((Nat →₀ Rat) →₀ Rat) m.dim
  single : gradeValue 1 x = x

variable {x y : CliffordValue m}

/-- Scalars commute with everything. -/
theorem IsScalar.comm (scalar : x.IsScalar) (y : CliffordValue m) : x * y = y * x := by
  obtain ⟨z, rfl⟩ := scalar
  exact Reading.clifford_comm_scalar Reading.laurent_mul_comm z y

/-- One is a scalar. -/
theorem isScalar_one : (1 : CliffordValue m).IsScalar := ⟨_, rfl⟩

/-- Products of scalars are scalars. -/
theorem IsScalar.mul (left : x.IsScalar) (right : y.IsScalar) : (x * y).IsScalar := by
  obtain ⟨z, rfl⟩ := left
  obtain ⟨w, rfl⟩ := right
  exact ⟨_, Reading.laurent.scalar_clifford m 0 z w⟩

/-- Multiples of vectors by scalars are vectors. -/
theorem IsScalar.mul_vector (scalar : x.IsScalar) (vector : y.IsVector) : (x * y).IsVector := by
  -- A multiple lies on the blades of the vector.
  obtain ⟨z, rfl⟩ := scalar
  exact ⟨Reading.laurent.clifford_mem .geometric (single_mem_spaceValues m.dim_pos z) vector.inSpace,
    (Reading.gradeValue_scalar 1 z y).trans
      (congrArg (Reading.laurent.clifford .geometric m (single 0 z)) vector.single)⟩

/-- Differences of vectors are vectors. -/
theorem IsVector.sub (left : x.IsVector) (right : y.IsVector) : (x - y).IsVector where
  inSpace := sub_mem left.inSpace right.inSpace
  single := (map_sub (gradeValue 1) x y).trans (congrArg₂ (· - ·) left.single right.single)

/-- The anticommutator of two vectors is a scalar. -/
theorem IsVector.anticommute (left : x.IsVector) (right : y.IsVector) :
    (x * y + y * x).IsScalar :=
  Reading.clifford_anticommute Reading.laurent_mul_comm left.inSpace right.inSpace left.single
    right.single

/-- The square of a vector is a scalar. -/
theorem IsVector.square (vector : x.IsVector) : (x * x).IsScalar :=
  Reading.clifford_square Reading.laurent_mul_comm vector.inSpace vector.single

/-- A vector between a vector and itself is a vector: the part that it has of the other vector is kept,
and the rest changes its sign. -/
theorem IsVector.sandwich (outer : x.IsVector) (inner : y.IsVector) : (x * y * x).IsVector := by
  -- One product is exchanged for the anticommutator of the two vectors.
  have split : x * y * x = (x * y + y * x) * x - (x * x) * y := by
    rw [outer.square.comm y]
    noncomm_ring
  rw [split]
  exact ((outer.anticommute inner).mul_vector outer).sub (outer.square.mul_vector inner)

end CliffordValue

end Clifford
