import Clifford.Proofs.Multivector.ValueRing

/-! Vectors as values: their inner product is the sum of the products of their coordinates with the
squares of the basis vectors, where the vectors of a null pair meet each other and not themselves. -/

namespace Clifford

open Finset Finsupp

namespace BladeProduct

open Blade Clifford.Metric

variable {s : Signature} {i j : Nat}

/-- A vector meets itself in its square. -/
theorem twist_vector_self (inside : i < s.n) :
    twist (squares s) s.n (vector i) (vector i) = squares s i := by
  -- A vector has nothing to cross and shares its own square.
  rw [twist, crossings_vector inside, below_vector, if_neg (lt_irrefl i),
    sharedSquares_vector _ inside, testBit_vector, decide_eq_true rfl]
  simp

/-- Of two vectors only equal ones have an inner product. -/
theorem inner_vectors (inside : i < s.n) :
    symmetricInner.coefficient s (vector i) (vector j) = if i = j then squares s i else 0 := by
  -- Vectors are not scalars, so that only their common part decides.
  have one : vector i ≠ 0 := (vector_pos i).ne'
  have other : vector j ≠ 0 := (vector_pos j).ne'
  by_cases same : i = j
  · subst same
    rw [coefficient, if_pos (by simp [keeps, one]), if_pos rfl, twist_vector_self inside]
  · -- Different vectors have nothing in common.
    have apart : vector i &&& vector j = 0 := by
      rw [and_vector, testBit_vector, decide_eq_false same, if_neg Bool.false_ne_true]
    have apart' : vector j &&& vector i = 0 := by rw [Nat.and_comm, apart]
    rw [coefficient, if_neg (by simp [keeps, apart, apart', one.symm, other.symm]), if_neg same]

/-- Two vectors multiply in either order to twice their inner product. -/
theorem geometric_vectors (left : i < s.n) (right : j < s.n) :
    geometric.coefficient s (vector i) (vector j) + geometric.coefficient s (vector j) (vector i) =
      2 * symmetricInner.coefficient s (vector i) (vector j) := by
  rw [inner_vectors left, coefficient, coefficient, if_pos (by rfl), if_pos (by rfl)]
  -- Equal vectors give their square twice, and different ones cancel.
  by_cases same : i = j
  · subst same
    rw [twist_vector_self left, if_pos rfl, two_mul]
  · have bounded {k : Nat} (inside : k < s.n) : vector k < 2 ^ s.n := by
      rw [vector_eq]
      exact Nat.pow_lt_pow_right (by decide) inside
    have apart : vector i ≠ vector j := by
      rw [vector_eq, vector_eq]
      exact fun equal => same (Nat.pow_right_injective (le_refl 2) equal)
    rw [twist_vectors _ (bounded left) (bounded right) (grade_vector i) (grade_vector j) apart,
      if_neg same, mul_zero]

end BladeProduct

section Values

variable {M : Type} [AddCommGroup M]

/-- The value with given coordinates on the first basis vectors. -/
noncomputable def vectorValue (n : Nat) (coordinates : Nat → M) : Nat →₀ M :=
  ∑ i ∈ range n, single (Blade.vector i) (coordinates i)

/-- One more basis vector. -/
theorem vectorValue_succ (n : Nat) (c : Nat → M) :
    vectorValue (n + 1) c = vectorValue n c + single (Blade.vector n) (c n) := sum_range_succ _ n

variable [Module Rat M]

namespace Reading

variable (r : Reading M) (s : Signature) (c d : Nat → M)

/-- A twisted product of vectors is the sum over all pairs of basis vectors. -/
theorem twisted_vectorValue (factor : Nat → Nat → Int) (n : Nat) :
    r.twisted factor (vectorValue n c) (vectorValue n d) =
      ∑ i ∈ range n, ∑ j ∈ range n, (factor (Blade.vector i) (Blade.vector j) : Rat) •
        single (Blade.vector i ^^^ Blade.vector j) (r.mul (c i) (d j)) := by
  -- Both factors are sums, and the product is linear in either.
  simp only [vectorValue, map_sum, LinearMap.sum_apply, r.twisted_single]
  exact Finset.sum_comm

/-- Over the orthogonal basis the inner product of vectors is a sum over their coordinates. -/
theorem inner_vectorValue :
    r.twisted (BladeProduct.symmetricInner.coefficient s) (vectorValue s.n c) (vectorValue s.n d) =
      single 0 (∑ i ∈ range s.n, (Metric.squares s i : Rat) • r.mul (c i) (d i)) := by
  rw [twisted_vectorValue, single_finsetSum]
  refine sum_congr rfl fun i inside => ?_
  have below := mem_range.mp inside
  -- The other basis vectors have no inner product with this one.
  rw [sum_eq_single_of_mem i inside fun j _ other => by
    rw [BladeProduct.inner_vectors below, if_neg other.symm, Int.cast_zero, zero_smul],
    BladeProduct.inner_vectors below, if_pos rfl, Nat.xor_self, smul_single]

/-- Over the orthogonal basis the square of a vector is its inner product with itself. -/
theorem square_vectorValue (commutative : ∀ u v, r.mul u v = r.mul v u) :
    r.twisted (BladeProduct.geometric.coefficient s) (vectorValue s.n c) (vectorValue s.n c) =
      r.twisted (BladeProduct.symmetricInner.coefficient s) (vectorValue s.n c)
        (vectorValue s.n c) := by
  -- Twice the square is the sum over all pairs in either order.
  have twice : (2 : Rat) • r.twisted (BladeProduct.geometric.coefficient s) (vectorValue s.n c)
        (vectorValue s.n c) =
      (2 : Rat) • r.twisted (BladeProduct.symmetricInner.coefficient s) (vectorValue s.n c)
        (vectorValue s.n c) := by
    rw [two_smul Rat (r.twisted _ _ _)]
    conv_lhs =>
      rw [twisted_vectorValue]
      arg 2
      rw [Finset.sum_comm]
    rw [twisted_vectorValue, ← sum_add_distrib, Finset.smul_sum]
    refine sum_congr rfl fun i left => ?_
    rw [← sum_add_distrib, Finset.smul_sum]
    refine sum_congr rfl fun j right => ?_
    -- The coefficients of a pair in both orders add up to twice that of the inner product.
    have both := BladeProduct.geometric_vectors (mem_range.mp left) (mem_range.mp right)
    rw [commutative (c j), Nat.xor_comm (Blade.vector j), ← add_smul, ← Int.cast_add, both, smul_smul]
    push_cast
    rfl
  exact smul_right_injective _ two_ne_zero twice

end Reading

namespace Metric

/-- Values on the scalar blade are the same over either basis. -/
theorem unframed_scalar (m : Metric) (x : M) : m.unframed (single 0 x) = single 0 x := by
  -- The scalar comes from itself over the other basis.
  conv_lhs => rw [← m.framed_scalar x, unframed_framed]

/-- A metric with a null pair. -/
def IsNull : Metric → Prop
  | null _ _ _ => True
  | _ => False

/-- The coordinates over the orthogonal basis, where the two null vectors share the vectors of the
pair. -/
def framedCoordinates (m : Metric) (c : Nat → M) (i : Nat) : M :=
  if i = m.pair.1 then (-1 / 2 : Rat) • c m.pair.1 + c m.pair.2
  else if i = m.pair.2 then (1 / 2 : Rat) • c m.pair.1 + c m.pair.2
  else c i

variable {m : Metric} (isNull : m.IsNull)

include isNull

/-- A null pair is a marked one. -/
theorem IsNull.marked : m.isDiagonal = false := by
  cases m with
  | null => rfl
  | _ => exact isNull.elim

/-- The basis vectors of a null metric other than the pair square to one. -/
theorem IsNull.squares_below {i : Nat} (inside : i < m.pair.1) : Metric.squares m.signature i = 1 := by
  -- The pair takes the last of the positive vectors and the negative one.
  cases m with
  | null s single positive =>
    have pair : (null s single positive).pair.1 + 2 = s.positive + s.negative + s.degenerate := by
      show s.positive + s.negative + s.degenerate - 2 + 2 = _
      omega
    rw [Metric.squares, diagonalSquare, if_pos]
    show (i : Int) < s.positive
    omega
  | _ => exact isNull.elim

/-- The vectors that a null pair replaces square to one and to minus one. -/
theorem IsNull.squares_pair :
    Metric.squares m.signature m.pair.1 = 1 ∧ Metric.squares m.signature m.pair.2 = -1 := by
  cases m with
  | null s single positive => exact squares_null single positive
  | _ => exact isNull.elim

/-- The null vectors over the orthogonal ones. -/
theorem IsNull.framed_pair (x : M) :
    m.framed (single (Blade.vector m.pair.1) x) = single (Blade.vector m.pair.1) ((-1 / 2 : Rat) • x) +
        single (Blade.vector m.pair.2) ((1 / 2 : Rat) • x) ∧
      m.framed (single (Blade.vector m.pair.2) x) = single (Blade.vector m.pair.2) x +
        single (Blade.vector m.pair.1) x := by
  have pair := pair_eq isNull.marked
  have matrix : m.toDiagonal = ⟨-1 / 2, 1 / 2, 1, 1⟩ := by
    cases m with
    | null => rfl
    | _ => exact isNull.elim
  -- Either vector of the pair holds itself and not the other one.
  have lowBits : (Blade.vector m.pair.1).testBit m.pair.1 = true ∧
      (Blade.vector m.pair.1).testBit m.pair.2 = false := by
    simp [show m.pair.1 ≠ m.pair.2 by omega]
  have highBits : (Blade.vector m.pair.2).testBit m.pair.1 = false ∧
      (Blade.vector m.pair.2).testBit m.pair.2 = true := by
    simp [show m.pair.2 ≠ m.pair.1 by omega]
  have fromLow : m.swapped (Blade.vector m.pair.1) = Blade.vector m.pair.2 := by
    rw [swapped, Nat.xor_self, Nat.zero_xor]
  have fromHigh : m.swapped (Blade.vector m.pair.2) = Blade.vector m.pair.1 := by
    rw [← fromLow, swapped_swapped]
  -- Each vector of the pair gives its own part and that on the other one.
  constructor
  · rw [framed, frame_one x (by simp only [lowBits]; decide), lowBits.1, fromLow, matrix]
    simp only [PairMatrix.own, PairMatrix.other, cond_true, smul_single]
  · rw [framed, frame_one x (by simp only [highBits]; decide), highBits.1, fromHigh, matrix]
    simp only [PairMatrix.own, PairMatrix.other, cond_false, one_smul]

/-- The coordinates of the pair are mixed, and the others are kept. -/
theorem IsNull.framedCoordinates_eq (c : Nat → M) :
    (∀ i < m.pair.1, m.framedCoordinates c i = c i) ∧
      m.framedCoordinates c m.pair.1 = (-1 / 2 : Rat) • c m.pair.1 + c m.pair.2 ∧
      m.framedCoordinates c m.pair.2 = (1 / 2 : Rat) • c m.pair.1 + c m.pair.2 := by
  have pair := pair_eq isNull.marked
  refine ⟨fun i below => ?_, if_pos rfl, ?_⟩
  · rw [framedCoordinates, if_neg below.ne, if_neg (by omega)]
  · rw [framedCoordinates, if_neg (by omega), if_pos rfl]

/-- A vector over the orthogonal basis has the shared coordinates. -/
theorem IsNull.framed_vectorValue (c : Nat → M) :
    m.framed (vectorValue m.n c) = vectorValue m.n (m.framedCoordinates c) := by
  have pair := pair_eq isNull.marked
  obtain ⟨kept, low, high⟩ := isNull.framedCoordinates_eq c
  -- The coordinates before the pair are kept one by one.
  have others : m.framed (vectorValue m.pair.1 c) = vectorValue m.pair.1 (m.framedCoordinates c) := by
    rw [vectorValue, map_sum]
    refine sum_congr rfl fun i inside => ?_
    have below := mem_range.mp inside
    -- The other vectors do not touch the pair.
    rw [framed, frame_none _ (by simp [below.ne]) (by simp; omega), kept i below]
  rw [← pair.2, vectorValue_succ, vectorValue_succ, ← pair.1, vectorValue_succ, vectorValue_succ, pair.1,
    map_add, map_add, others, (isNull.framed_pair _).1, (isNull.framed_pair _).2, low, high, single_add,
    single_add]
  abel

/-- The inner product of vectors over a null pair: each null vector meets the other one in minus one. -/
theorem IsNull.clifford_inner (r : Reading M) (c d : Nat → M) :
    r.clifford .symmetricInner m (vectorValue m.n c) (vectorValue m.n d) =
      single 0 (∑ i ∈ range m.pair.1, r.mul (c i) (d i) - r.mul (c m.pair.1) (d m.pair.2) -
        r.mul (c m.pair.2) (d m.pair.1)) := by
  have pair := pair_eq isNull.marked
  obtain ⟨keptC, lowC, highC⟩ := isNull.framedCoordinates_eq c
  obtain ⟨keptD, lowD, highD⟩ := isNull.framedCoordinates_eq d
  -- The other vectors square to one.
  have others : ∑ i ∈ range m.pair.1, (Metric.squares m.signature i : Rat) •
        r.mul (m.framedCoordinates c i) (m.framedCoordinates d i) =
      ∑ i ∈ range m.pair.1, r.mul (c i) (d i) := by
    refine sum_congr rfl fun i inside => ?_
    have below := mem_range.mp inside
    rw [isNull.squares_below below, keptC i below, keptD i below, Int.cast_one, one_smul]
  -- Over the orthogonal basis the squares of the null vectors cancel, and their mixed products add up.
  rw [r.clifford_apply, isNull.framed_vectorValue, isNull.framed_vectorValue,
    show m.n = m.signature.n from rfl, r.inner_vectorValue, unframed_scalar,
    show m.signature.n = m.pair.1 + 1 + 1 by rw [pair.1, pair.2]; rfl, sum_range_succ,
    sum_range_succ, pair.1, others, isNull.squares_pair.1, isNull.squares_pair.2, lowC, lowD,
    highC, highD]
  simp only [map_add, map_smul, LinearMap.add_apply, LinearMap.smul_apply]
  congr 1
  push_cast
  module

/-- The square of a vector over a null pair is its inner product with itself. -/
theorem IsNull.clifford_square {r : Reading M} (commutative : ∀ u v, r.mul u v = r.mul v u)
    (c : Nat → M) :
    r.clifford .geometric m (vectorValue m.n c) (vectorValue m.n c) =
      r.clifford .symmetricInner m (vectorValue m.n c) (vectorValue m.n c) := by
  -- The square is taken over the orthogonal basis.
  rw [r.clifford_apply, r.clifford_apply, isNull.framed_vectorValue]
  exact congrArg m.unframed (r.square_vectorValue m.signature _ commutative)

end Metric

end Values

end Clifford
