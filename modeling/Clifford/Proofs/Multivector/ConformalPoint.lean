import Clifford.Proofs.Multivector.VectorValue

/-! Conformal points: the embedding of a Euclidean point is a null vector, and the inner product of two
of them is minus half the square of their distance. -/

namespace Clifford

open Finset Finsupp

section Coordinates

variable {R : Type} [CommRing R] [Module Rat R]

/-- The coordinates of the conformal point of a Euclidean one: its own, one for the origin, and half the
square of its length for infinity. -/
def pointCoordinates (k : Nat) (c : Nat → R) (i : Nat) : R :=
  if i < k then c i else if i = k then 1 else (1 / 2 : Rat) • ∑ j ∈ range k, c j * c j

/-- The inner product of the coordinates of conformal points is minus half the square of the distance. -/
theorem inner_pointCoordinates (k : Nat) (c d : Nat → R) :
    ∑ i ∈ range k, pointCoordinates k c i * pointCoordinates k d i -
        pointCoordinates k c k * pointCoordinates k d (k + 1) -
        pointCoordinates k c (k + 1) * pointCoordinates k d k =
      (-1 / 2 : Rat) • ∑ i ∈ range k, (c i - d i) * (c i - d i) := by
  have own (e : Nat → R) {i : Nat} (inside : i ∈ range k) : pointCoordinates k e i = e i :=
    if_pos (mem_range.mp inside)
  have origin (e : Nat → R) : pointCoordinates k e k = 1 := by
    rw [pointCoordinates, if_neg (lt_irrefl k), if_pos rfl]
  have infinity (e : Nat → R) :
      pointCoordinates k e (k + 1) = (1 / 2 : Rat) • ∑ j ∈ range k, e j * e j := by
    rw [pointCoordinates, if_neg (by omega), if_neg (by omega)]
  -- The square of a difference is expanded coordinate by coordinate.
  have expand : ∑ i ∈ range k, (c i - d i) * (c i - d i) =
      ∑ i ∈ range k, c i * c i + ∑ i ∈ range k, d i * d i - (2 : Rat) • ∑ i ∈ range k, c i * d i := by
    rw [Finset.smul_sum, ← sum_add_distrib, ← sum_sub_distrib]
    refine sum_congr rfl fun i _ => ?_
    rw [two_smul]
    ring
  rw [sum_congr rfl fun i inside => by rw [own c inside, own d inside], origin, origin, infinity,
    infinity, expand, one_mul, mul_one]
  module

end Coordinates

/-- A signature that is accepted has the counts that were asked for. -/
theorem Signature.counts_of_ofCounts {p q r : Int} {s : Signature} (made : ofCounts p q r = .ok s) :
    s.positive = p.toNat ∧ s.negative = q.toNat ∧ s.degenerate = r.toNat := by
  rw [ofCounts] at made
  -- Negative counts and too many dimensions are refused.
  split_ifs at made
  cases made
  exact ⟨rfl, rfl, rfl⟩

/-- A conformal algebra has a null metric, whose pair comes after the vectors of the Euclidean space. -/
theorem Algebra.conformal_spec {d : Int} {A : Algebra} (made : Algebra.conformal d = .ok A) :
    ∃ k : Nat, d = k ∧ A.euclidean = some k ∧ A.metric.IsNull ∧ A.metric.pair.1 = k ∧ A.n = k + 2 := by
  obtain ⟨m, metric, done⟩ := Result.bind_eq_ok.mp made
  cases done
  rw [Metric.ofNull, if_neg (by simp)] at metric
  split at metric
  · -- A negative dimension is refused.
    cases metric
  · rename_i positive
    obtain ⟨s, counts, rest⟩ := Result.bind_eq_ok.mp metric
    -- The signature has the vectors of space, one more positive and one negative.
    have vectors : s.n = (d + 1).toNat + 1 := by
      obtain ⟨positive, negative, degenerate⟩ := Signature.counts_of_ofCounts counts
      rw [Signature.n, positive, negative, degenerate]
      rfl
    split at rest
    · split at rest
      · cases rest
        refine ⟨d.toNat, by omega, rfl, trivial, ?_, ?_⟩
        · show s.n - 2 = d.toNat
          omega
        · show s.n = d.toNat + 2
          omega
      · cases rest
    · cases rest

/-- The square of the distance of two points with whole coordinates. -/
def squaredDistance (x y : List Int) : Int := (List.zipWith (fun a b => (a - b) * (a - b)) x y).sum

/-- The square of the distance is a sum over the coordinates. -/
theorem squaredDistance_eq {x : List Int} : ∀ {y : List Int}, y.length = x.length →
    squaredDistance x y = ∑ i ∈ range x.length, (x.getD i 0 - y.getD i 0) * (x.getD i 0 - y.getD i 0) := by
  -- One pair of coordinates after the other is taken off both lists.
  induction x with
  | nil => simp [squaredDistance]
  | cons a x ih =>
    intro y same
    cases y with
    | nil => simp at same
    | cons b y =>
      have rest := ih (y := y) (by simpa using same)
      rw [squaredDistance] at rest
      simp [squaredDistance, rest, sum_range_succ', add_comm]

namespace Multivector

variable {dim k : Nat}

/-- Numbers as values without indeterminates. -/
noncomputable def numberValue (q : Rat) : (Nat →₀ Rat) →₀ Rat := single 0 q

/-- Numbers multiply as values. -/
theorem mul_numberValue (p q : Rat) :
    Reading.laurent.mul (numberValue p) (numberValue q) = numberValue (p * q) := by
  -- Numbers are monomials without powers, whose exponents add up to none.
  rw [numberValue, numberValue, Reading.laurent_mul_single, add_zero, numberValue]

/-- The value of a multiple of a basis blade. -/
theorem read_basis_number (element : Nat) (q : Rat) :
    Reading.laurent.read (basis element q) = single element (numberValue q) := by
  rw [Polynomial.read_basis_of]
  simp [Reading.laurent, exponents, numberValue]

end Multivector

namespace Algebra

open Multivector

/-- Whole coordinates are added vector by vector, together with their squares. -/
theorem exists_addCoordinates {n : Nat} (cs : List Int) : ∀ (i : Nat) (sum : Multivector) (square : Int),
    i + cs.length ≤ n → sum.Polynomial (2 ^ n) 1 →
    ∃ sum', addCoordinates i (cs.map Int.cast) sum square =
        .ok (sum', ((square + ∑ j ∈ range cs.length, cs.getD j 0 * cs.getD j 0 : Int) : Rat)) ∧
      sum'.Polynomial (2 ^ n) 1 ∧
      Reading.laurent.read sum' = Reading.laurent.read sum +
        ∑ j ∈ range cs.length, single (Blade.vector (i + j)) (numberValue (cs.getD j 0 : Int)) := by
  -- The sum and the square of the coordinates before these are carried along.
  induction cs with
  | nil => exact fun i sum square _ polynomial => ⟨sum, by simp [addCoordinates], polynomial, by simp⟩
  | cons c rest ih =>
    intro i sum square fits polynomial
    simp only [List.length_cons] at fits
    -- The vector of this coordinate is one of the space.
    have inside : Blade.vector i < 2 ^ n := by
      rw [Blade.vector_eq]
      exact Nat.pow_lt_pow_right (by decide) (by omega)
    have number : Dyadic 1 (c : Rat) := (Dyadic.intCast c).mono (by decide)
    obtain ⟨next, added, polynomial', value⟩ :=
      polynomial.exists_add (Polynomial.basis_of inside number) (by decide)
    -- Arithmetic on whole numbers is exact.
    have squared : gatedMul (c : Rat) c = .ok ((c * c : Int) : Rat) := by
      rw [gatedMul_eq_ok (Dyadic.intCast c) (Dyadic.intCast c) (by decide)]
      push_cast
      rfl
    have total : gatedAdd (square : Rat) ((c * c : Int) : Rat) = .ok ((square + c * c : Int) : Rat) := by
      rw [gatedAdd_eq_ok (Dyadic.intCast square) (Dyadic.intCast _) (by decide)]
      push_cast
      rfl
    obtain ⟨sum', run, polynomial'', value'⟩ :=
      ih (i + 1) next (square + c * c) (by omega) polynomial'
    refine ⟨sum', ?_, polynomial'', ?_⟩
    · -- The coordinate joins the sum, its square the square, and the rest runs from there.
      rw [List.map_cons, addCoordinates, added, Result.ok_bind, squared, Result.ok_bind, total,
        Result.ok_bind, run, List.length_cons, sum_range_succ']
      simp only [List.getD_cons_succ, List.getD_cons_zero]
      congr 3
      ring
    · rw [value', value, read_basis_number, List.length_cons, sum_range_succ']
      simp only [List.getD_cons_succ, List.getD_cons_zero, add_zero]
      rw [sum_congr rfl fun j _ => by rw [show i + 1 + j = i + (j + 1) by omega]]
      abel

variable {A : Algebra} {k : Nat}

/-- The coordinates of the conformal point of a Euclidean one with whole coordinates, as values. -/
noncomputable def pointValue (x : List Int) (i : Nat) : (Nat →₀ Rat) →₀ Rat :=
  numberValue (pointCoordinates x.length (fun j => (x.getD j 0 : Rat)) i)

/-- Points with whole coordinates are embedded, with the coordinates of their conformal points. -/
theorem exists_up (euclidean : A.euclidean = some k) (vectors : A.n = k + 2) {x : List Int}
    (length : x.length = k) :
    ∃ p, A.up (x.map .integer) = .ok p ∧ p.Polynomial A.dim 1 ∧
      Reading.laurent.read p = vectorValue A.n (pointValue x) := by
  have power : A.dim = 2 ^ A.n := A.metric.dim_eq_two_pow
  have inside {i : Nat} (below : i < A.n) : Blade.vector i < 2 ^ A.n := by
    rw [Blade.vector_eq]
    exact Nat.pow_lt_pow_right (by decide) below
  have origin : (basis (Blade.vector k) 1).Polynomial (2 ^ A.n) 1 :=
    Polynomial.basis_of (inside (by omega)) (.one 1)
  -- The coordinates are added to the origin, and half of their squares at infinity to that.
  obtain ⟨sum, run, polynomial, value⟩ :=
    exists_addCoordinates x 0 _ 0 (n := A.n) (by omega) origin
  set square : Int := 0 + ∑ j ∈ range x.length, x.getD j 0 * x.getD j 0 with squareIs
  have half : Dyadic 1 ((square : Rat) * (1 / 2)) := ⟨square, by ring⟩
  have halved : gatedMul (square : Rat) (1 / 2) = .ok ((square : Rat) * (1 / 2)) :=
    gatedMul_eq_ok (Dyadic.intCast square) ⟨1, by norm_num⟩ (by decide : 0 + 1 ≤ exactBits)
  obtain ⟨p, added, polynomial', value'⟩ :=
    polynomial.exists_add (Polynomial.basis_of (inside (i := k + 1) (by omega)) half) (by decide)
  have numbers : (x.map Literal.integer).mapM Literal.coefficient = .ok (x.map Int.cast) := by
    rw [List.mapM_map]
    exact Result.mapM_ok fun c _ => rfl
  refine ⟨p, ?_, power ▸ polynomial', ?_⟩
  · rw [Int.cast_zero] at run
    rw [up, euclidean]
    dsimp only
    rw [if_neg (by simpa using length), numbers, Result.ok_bind, Algebra.origin, euclidean]
    dsimp only
    rw [Result.ok_bind, run, Result.ok_bind, halved, Result.ok_bind, added]
  · -- The Euclidean coordinates come first, and then those of the null vectors.
    have euclideanValue : vectorValue k (pointValue x) =
        ∑ j ∈ range x.length, single (Blade.vector (0 + j)) (numberValue (x.getD j 0 : Int)) := by
      rw [vectorValue, ← length]
      refine sum_congr rfl fun j below => ?_
      rw [pointValue, pointCoordinates, if_pos (mem_range.mp below), Nat.zero_add]
    have originValue : pointValue x k = numberValue 1 := by
      rw [pointValue, pointCoordinates, length, if_neg (lt_irrefl k), if_pos rfl]
    have infinityValue : pointValue x (k + 1) = numberValue ((square : Rat) * (1 / 2)) := by
      rw [pointValue, pointCoordinates, length, if_neg (by omega), if_neg (by omega), squareIs, length]
      push_cast
      rw [zero_add, smul_eq_mul, mul_comm]
    rw [value', value, read_basis_number, read_basis_number, vectors, vectorValue_succ, vectorValue_succ,
      euclideanValue, originValue, infinityValue]
    abel

/-- The inner product of two conformal points, as a value. -/
theorem inner_pointValue (isNull : A.metric.IsNull) (low : A.metric.pair.1 = k) {x y : List Int}
    (left : x.length = k) (right : y.length = k) :
    Reading.laurent.clifford .symmetricInner A.metric (vectorValue A.n (pointValue x))
        (vectorValue A.n (pointValue y)) =
      single 0 (numberValue (-(squaredDistance x y : Rat) / 2)) := by
  have pair := Metric.pair_eq isNull.marked
  have numbers (f : Nat → Rat) : ∑ i ∈ range k, numberValue (f i) = numberValue (∑ i ∈ range k, f i) :=
    (single_finsetSum (range k) f 0).symm
  have subtract (p q : Rat) : numberValue p - numberValue q = numberValue (p - q) :=
    (single_sub 0 p q).symm
  -- The distance is that of the coordinates as numbers.
  have distance : -(squaredDistance x y : Rat) / 2 = (-1 / 2 : Rat) • ∑ i ∈ range k,
      ((x.getD i 0 : Rat) - y.getD i 0) * ((x.getD i 0 : Rat) - y.getD i 0) := by
    rw [squaredDistance_eq (right.trans left.symm), left, smul_eq_mul]
    push_cast
    ring
  rw [show A.n = A.metric.n from rfl, isNull.clifford_inner, ← pair.1, low]
  simp only [pointValue, mul_numberValue, left, right]
  rw [numbers, subtract, subtract, inner_pointCoordinates, distance]

/-- The conformal point of a Euclidean one is a null vector, and the inner product of two of them is minus
half the square of their distance. -/
theorem up_isometry {d : Int} {A : Algebra} (made : Algebra.conformal d = .ok A) {x y : List Int}
    (left : x.length = d) (right : y.length = d) :
    ∃ p q, A.up (x.map .integer) = .ok p ∧ A.up (y.map .integer) = .ok q ∧
      A.geometric p p = .ok .zero ∧
      A.inner p q = .ok (.scalar (-(squaredDistance x y : Rat) / 2)) := by
  obtain ⟨k, rfl, euclidean, isNull, low, vectors⟩ := conformal_spec made
  have left : x.length = k := by exact_mod_cast left
  have right : y.length = k := by exact_mod_cast right
  obtain ⟨p, embedP, polyP, valueP⟩ := exists_up euclidean vectors left
  obtain ⟨q, embedQ, polyQ, valueQ⟩ := exists_up euclidean vectors right
  obtain ⟨square, runSquare, polySquare, valueSquare⟩ := polyP.exists_product .geometric polyP (by decide)
  obtain ⟨c, runInner, polyC, valueC⟩ := polyP.exists_product .symmetricInner polyQ (by decide)
  have scalar (r : Rat) (dyadic : Dyadic 1 r) : (Multivector.scalar r).Polynomial A.dim 1 :=
    Polynomial.basis_of A.metric.dim_pos dyadic
  refine ⟨p, q, embedP, embedQ, ?_, ?_⟩
  · -- The square is the inner product with itself, at the distance zero.
    have none : squaredDistance x x = 0 := by
      rw [squaredDistance_eq rfl]
      simp
    have same : square = .scalar 0 := by
      refine polySquare.eq_of_read (scalar 0 (.zero 1)) ?_
      rw [valueSquare, valueP, show A.n = A.metric.n from rfl,
        isNull.clifford_square Reading.laurent_mul_comm, show A.metric.n = A.n from rfl,
        inner_pointValue isNull low left left, none, Multivector.scalar, read_basis_number]
      norm_num
    rw [geometric, runSquare, same]
    rfl
  · -- Two values of polynomials are equal only if the polynomials are.
    have same : c = .scalar (-(squaredDistance x y : Rat) / 2) := by
      refine polyC.eq_of_read (scalar _ ⟨-squaredDistance x y, by push_cast; ring⟩) ?_
      rw [valueC, valueP, valueQ, inner_pointValue isNull low left right, Multivector.scalar,
        read_basis_number]
    rw [inner, runInner, same]

/-- In the conformal algebra of the plane the points `(3, 0)` and `(-1, 3)` have the distance five. -/
theorem up_isometry_plane :
    ∃ A, Algebra.conformal 2 = .ok A ∧ ∃ p q, A.up ([3, 0].map .integer) = .ok p ∧
      A.up ([-1, 3].map .integer) = .ok q ∧ A.geometric p p = .ok .zero ∧
      A.inner p q = .ok (.scalar (-25 / 2)) := by
  obtain ⟨A, made⟩ : ∃ A, Algebra.conformal 2 = .ok A := ⟨_, rfl⟩
  obtain ⟨p, q, laws⟩ := up_isometry made (x := [3, 0]) (y := [-1, 3]) rfl rfl
  exact ⟨A, made, p, q, laws⟩

end Algebra

end Clifford
