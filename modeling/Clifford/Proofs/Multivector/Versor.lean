import Clifford.Proofs.Multivector.Lattice
import Clifford.Proofs.Multivector.PartProduct
import Clifford.Proofs.Multivector.ValueRing

/-! Versors: a product of vectors on the left and its reversal on the right take vectors to vectors and
multiply their squares by those of all factors. -/

namespace Clifford

open Finsupp

namespace CliffordValue

variable {m : Metric} {vs : List (CliffordValue m)} {a : CliffordValue m}

variable (vectors : ∀ v ∈ vs, v.IsVector)

include vectors

/-- Products of vectors of the space are values of the space. -/
theorem prod_mem : vs.prod ∈ spaceValues ((Nat →₀ Rat) →₀ Rat) m.dim := by
  -- Values of the space are closed under products.
  induction vs with
  | nil => exact single_mem_spaceValues m.dim_pos _
  | cons v rest ih =>
    obtain ⟨vector, others⟩ := List.forall_mem_cons.mp vectors
    rw [List.prod_cons, mul_def]
    exact Reading.laurent.clifford_mem .geometric vector.inSpace (ih others)

/-- Reversing a product of vectors reverses their order. -/
theorem reversal_prod : Reading.reversal vs.prod = vs.reverse.prod := by
  induction vs with
  | nil =>
    show bladewise _ (single 0 _) = single 0 _
    rw [bladewise_single]
    simp [Blade.reversionSign, Blade.grade, Blade.swapSign]
  | cons v rest ih =>
    obtain ⟨vector, others⟩ := List.forall_mem_cons.mp vectors
    -- The first factor goes to the end, where it is its own reversal.
    have exchanged := Reading.reversal_clifford Reading.laurent_mul_comm vector.inSpace
      (prod_mem others)
    rw [Reading.reversal_vector vector.single, ih others] at exchanged
    rw [List.prod_cons, List.reverse_cons, List.prod_append, List.prod_singleton]
    exact exchanged

/-- Vectors go over into vectors between a product of vectors and its reversal. -/
theorem isVector_conjugate (vector : a.IsVector) : (vs.prod * a * vs.reverse.prod).IsVector := by
  -- The innermost factors are taken first, each of them on both sides.
  induction vs with
  | nil => simpa using vector
  | cons v rest ih =>
    obtain ⟨outer, others⟩ := List.forall_mem_cons.mp vectors
    have regroup : (v :: rest).prod * a * (v :: rest).reverse.prod =
        v * (rest.prod * a * rest.reverse.prod) * v := by
      simp [mul_assoc]
    rw [regroup]
    exact outer.sandwich (ih others)

/-- The product of the squares of vectors is a scalar. -/
theorem isScalar_squares : (vs.map fun v => v * v).prod.IsScalar := by
  -- Every square is a scalar, and scalars multiply to scalars.
  induction vs with
  | nil => exact isScalar_one
  | cons v rest ih =>
    obtain ⟨vector, others⟩ := List.forall_mem_cons.mp vectors
    rw [List.map_cons, List.prod_cons]
    exact vector.square.mul (ih others)

/-- A product of vectors and its reversal multiply to the product of the squares. -/
theorem prod_mul_reverse : vs.prod * vs.reverse.prod = (vs.map fun v => v * v).prod := by
  induction vs with
  | nil => simp
  | cons v rest ih =>
    obtain ⟨-, others⟩ := List.forall_mem_cons.mp vectors
    -- The inner factors give a scalar, which the outer one passes.
    calc (v :: rest).prod * (v :: rest).reverse.prod
        = v * (rest.prod * rest.reverse.prod) * v := by simp [mul_assoc]
      _ = v * (rest.map fun v => v * v).prod * v := by rw [ih others]
      _ = v * v * (rest.map fun v => v * v).prod := by
        rw [mul_assoc, (isScalar_squares others).comm v, mul_assoc]
      _ = ((v :: rest).map fun v => v * v).prod := by rw [List.map_cons, List.prod_cons]

/-- The reversal of a product of vectors and the product multiply to the product of the squares. -/
theorem reverse_mul_prod : vs.reverse.prod * vs.prod = (vs.map fun v => v * v).prod := by
  induction vs with
  | nil => simp
  | cons v rest ih =>
    obtain ⟨vector, others⟩ := List.forall_mem_cons.mp vectors
    -- Here the first factor is the innermost one.
    calc (v :: rest).reverse.prod * (v :: rest).prod
        = rest.reverse.prod * (v * v) * rest.prod := by simp [mul_assoc]
      _ = v * v * (rest.reverse.prod * rest.prod) := by
        rw [← vector.square.comm, mul_assoc]
      _ = ((v :: rest).map fun v => v * v).prod := by rw [ih others, List.map_cons, List.prod_cons]

/-- Between a product of vectors and its reversal the square of a vector is multiplied by the square of
the product of all squares. -/
theorem square_conjugate (vector : a.IsVector) :
    (vs.prod * a * vs.reverse.prod) * (vs.prod * a * vs.reverse.prod) =
      ((vs.map fun v => v * v).prod * (vs.map fun v => v * v).prod) * (a * a) := by
  -- The norm passes to the front from between the two halves.
  have scalar := isScalar_squares vectors
  set norm := (vs.map fun v => v * v).prod with squares
  calc (vs.prod * a * vs.reverse.prod) * (vs.prod * a * vs.reverse.prod)
      = vs.prod * a * (vs.reverse.prod * vs.prod) * a * vs.reverse.prod := by simp only [mul_assoc]
    _ = vs.prod * a * norm * a * vs.reverse.prod := by rw [reverse_mul_prod vectors]
    _ = norm * (vs.prod * (a * a) * vs.reverse.prod) := by
      rw [← scalar.comm (vs.prod * a)]
      simp only [mul_assoc]
    _ = norm * ((a * a) * (vs.prod * vs.reverse.prod)) := by
      rw [← vector.square.comm vs.prod, mul_assoc (a * a)]
    _ = norm * norm * (a * a) := by
      rw [prod_mul_reverse vectors, ← squares, vector.square.comm norm, mul_assoc]

end CliffordValue

namespace Multivector

variable {m : Metric} {dim k : Nat} {a b : Multivector}

/-- The value of a multivector over a metric. -/
noncomputable def cliffordValue (m : Metric) (a : Multivector) : CliffordValue m :=
  Reading.laurent.read a

/-- The value of an integral multivector of grade one is a vector. -/
theorem Integral.isVector (integral : a.Integral m.dim) (single : a.OfGrade 1) :
    (a.cliffordValue m).IsVector where
  inSpace := Reading.laurent.read_mem_spaceValues integral.toWhole.over
  single := single.read_eq Reading.laurent

/-- Polynomials whose value is its part of one grade have that grade. -/
theorem Polynomial.ofGrade {grade : Nat} (polynomial : a.Polynomial dim k)
    (single : gradeValue grade (Reading.laurent.read a) = Reading.laurent.read a) :
    a.OfGrade grade := by
  intro e inside
  obtain ⟨t, member, rfl⟩ := List.mem_map.mp inside
  -- The value on the blade of a term is not zero.
  have canonical := polynomial.inSpace.canonical
  obtain ⟨mono, monomial⟩ := List.exists_mem_of_ne_nil _ (canonical.terms t member).nonempty
  have entry : (⟨t.element, mono⟩ : Entry) ∈ a.entries :=
    mem_entries member (List.mem_map_of_mem monomial)
  refine grade_of_gradeValue single fun zero => (canonical.entry entry).nonzero ?_
  rw [← polynomial.coefficient_eq entry, zero]
  rfl

/-- Integral multivectors have an integral reversal. -/
theorem Integral.exists_reverse (integral : a.Integral dim) :
    ∃ b, a.reverse = .ok b ∧ b.Integral dim ∧
      Reading.laurent.read b = Reading.reversal (Reading.laurent.read a) := by
  -- Reversals change signs, which keeps coefficients whole.
  obtain ⟨b, made, polynomial, value⟩ := integral.polynomial.exists_reverse
  exact ⟨b, made, polynomial.integral (read_mem_wholeValues polynomial.inSpace.dyadic), value⟩

end Multivector

namespace Algebra

variable {A : Algebra} {vs : List Multivector} {a : Multivector}

/-- The geometric product of a list of multivectors, from the left. -/
def productOf (A : Algebra) : List Multivector → Result Multivector
  | [] => .ok (.scalar 1)
  | v :: vs => vs.foldlM A.geometric v

/-- The square of the product of the squares of a list of multivectors. -/
def squaredNorm (A : Algebra) (vs : List Multivector) : Result Multivector := do
  let norm ← A.productOf (← vs.mapM fun v => A.geometric v v)
  A.geometric norm norm

/-- Integral multivectors have an integral geometric product, whose value is the product of theirs. -/
theorem exists_mul (left : a.Integral A.dim) {b : Multivector} (right : b.Integral A.dim) :
    ∃ c, A.geometric a b = .ok c ∧ c.Integral A.dim ∧
      c.cliffordValue A.metric = a.cliffordValue A.metric * b.cliffordValue A.metric :=
  left.exists_geometric right

/-- Multiplying an integral multivector by one factor of a list after the other returns an integral
multivector, whose value is the product of all values. -/
theorem exists_foldl (start : a.Integral A.dim) (integral : ∀ v ∈ vs, v.Integral A.dim) :
    ∃ b, vs.foldlM A.geometric a = .ok b ∧ b.Integral A.dim ∧
      b.cliffordValue A.metric =
        a.cliffordValue A.metric * (vs.map (Multivector.cliffordValue A.metric)).prod := by
  -- One factor after the other joins the product so far.
  induction vs generalizing a with
  | nil => exact ⟨a, rfl, start, by simp⟩
  | cons v rest ih =>
    obtain ⟨first, others⟩ := List.forall_mem_cons.mp integral
    obtain ⟨next, step, integralNext, valueNext⟩ := exists_mul start first
    obtain ⟨b, run, integralB, value⟩ := ih integralNext others
    refine ⟨b, by rw [List.foldlM_cons, step, Result.ok_bind, run], integralB, ?_⟩
    rw [value, valueNext, List.map_cons, List.prod_cons, mul_assoc]

/-- Lists of integral multivectors have an integral product, whose value is the product of their values. -/
theorem exists_productOf (integral : ∀ v ∈ vs, v.Integral A.dim) :
    ∃ b, A.productOf vs = .ok b ∧ b.Integral A.dim ∧
      b.cliffordValue A.metric = (vs.map (Multivector.cliffordValue A.metric)).prod := by
  cases vs with
  | nil =>
    have one : (Multivector.scalar 1).Polynomial A.dim 0 :=
      Multivector.Polynomial.basis A.metric.dim_pos
    exact ⟨_, rfl, one.integral (Multivector.read_mem_wholeValues one.inSpace.dyadic),
      Multivector.Polynomial.read_basis 0⟩
  | cons v rest =>
    -- The product starts from the first factor, and not from one.
    rw [List.map_cons, List.prod_cons]
    obtain ⟨first, others⟩ := List.forall_mem_cons.mp integral
    exact exists_foldl first others

/-- Lists of integral multivectors have integral squares. -/
theorem exists_squares (integral : ∀ v ∈ vs, v.Integral A.dim) :
    ∃ squares, vs.mapM (fun v => A.geometric v v) = .ok squares ∧
      (∀ s ∈ squares, s.Integral A.dim) ∧
      squares.map (Multivector.cliffordValue A.metric) =
        (vs.map (Multivector.cliffordValue A.metric)).map fun v => v * v := by
  -- The list is squared entry by entry.
  induction vs with
  | nil => exact ⟨[], rfl, by simp, rfl⟩
  | cons v rest ih =>
    obtain ⟨first, others⟩ := List.forall_mem_cons.mp integral
    obtain ⟨square, run, integralSquare, value⟩ := exists_mul first first
    obtain ⟨squares, runs, integralSquares, values⟩ := ih others
    refine ⟨square :: squares, ?_, List.forall_mem_cons.mpr ⟨integralSquare, integralSquares⟩, ?_⟩
    · rw [List.mapM_cons, run, Result.ok_bind, runs]
      rfl
    · rw [List.map_cons, List.map_cons, List.map_cons, value, values]

/-- Lists of integral multivectors have an integral squared norm. -/
theorem exists_squaredNorm (integral : ∀ v ∈ vs, v.Integral A.dim) :
    ∃ b, A.squaredNorm vs = .ok b ∧ b.Integral A.dim ∧
      b.cliffordValue A.metric =
        ((vs.map (Multivector.cliffordValue A.metric)).map fun v => v * v).prod *
          ((vs.map (Multivector.cliffordValue A.metric)).map fun v => v * v).prod := by
  -- The squares have a product, which is squared in turn.
  obtain ⟨squares, runs, integrals, values⟩ := exists_squares integral
  obtain ⟨norm, run, integralNorm, valueNorm⟩ := exists_productOf integrals
  obtain ⟨b, product, integralB, value⟩ := exists_mul integralNorm integralNorm
  refine ⟨b, by rw [squaredNorm, runs, Result.ok_bind, run, Result.ok_bind, product], integralB, ?_⟩
  rw [value, valueNorm, values]

/-- A product of vectors takes vectors to vectors, and multiplies their squares by the square of the
product of the squares of its factors. -/
theorem sandwich_versor (A : Algebra) {vs : List Multivector} {a : Multivector}
    (integrals : ∀ v ∈ vs, v.Integral A.dim) (vectors : ∀ v ∈ vs, v.OfGrade 1)
    (integral : a.Integral A.dim) (vector : a.OfGrade 1) :
    ∃ s d, (do A.sandwich a (← A.productOf vs)) = .ok s ∧ s.OfGrade 1 ∧
      A.geometric s s = .ok d ∧
      (do A.geometric (← A.squaredNorm vs) (← A.geometric a a)) = .ok d := by
  have values : ∀ v ∈ vs.map (Multivector.cliffordValue A.metric), v.IsVector := by
    intro v inside
    obtain ⟨w, member, rfl⟩ := List.mem_map.mp inside
    exact (integrals w member).isVector (vectors w member)
  have isVector := integral.isVector (m := A.metric) vector
  -- Integral multivectors are closed under products and reversals, so that nothing fails.
  obtain ⟨versor, runVersor, integralVersor, valueVersor⟩ := exists_productOf integrals
  obtain ⟨left, runLeft, integralLeft, valueLeft⟩ := exists_mul integralVersor integral
  obtain ⟨reversed, runReversed, integralReversed, valueReversed⟩ := integralVersor.exists_reverse
  obtain ⟨s, runS, integralS, valueS⟩ := exists_mul integralLeft integralReversed
  obtain ⟨d, runD, integralD, valueD⟩ := exists_mul integralS integralS
  obtain ⟨norm, runNorm, integralNorm, valueNorm⟩ := exists_squaredNorm integrals
  obtain ⟨square, runSquare, integralSquare, valueSquare⟩ := exists_mul integral integral
  obtain ⟨d', runD', integralD', valueD'⟩ := exists_mul integralNorm integralSquare
  -- All results exist, with values in the ring, where the laws of versors hold.
  have reversal : reversed.cliffordValue A.metric =
      (vs.map (Multivector.cliffordValue A.metric)).reverse.prod := by
    rw [← CliffordValue.reversal_prod values, ← valueVersor]
    exact valueReversed
  rw [valueLeft, valueVersor, reversal] at valueS
  have same : d' = d := by
    refine integralD'.polynomial.eq_of_read integralD.polynomial ?_
    show d'.cliffordValue A.metric = d.cliffordValue A.metric
    rw [valueD', valueNorm, valueSquare, valueD, valueS, CliffordValue.square_conjugate values isVector]
  refine ⟨s, d, ?_, ?_, runD, ?_⟩
  · rw [runVersor, Result.ok_bind, sandwich, runLeft, Result.ok_bind, runReversed, Result.ok_bind, runS]
  · have conjugate := CliffordValue.isVector_conjugate values isVector
    rw [← valueS] at conjugate
    exact integralS.polynomial.ofGrade conjugate.single
  · rw [runNorm, Result.ok_bind, runSquare, Result.ok_bind, runD', same]

/-- The vector `3 * e₁ + x * e_inf` between the product of `2 * x * e_o + e₁` and `y⁻¹ * e_inf - e_o` in a
conformal algebra and its reversal. -/
theorem sandwich_versor_conformal :
    let A : Algebra := { metric := .null ⟨2, 1, 0, by decide⟩ (by decide) (by decide) }
    let v : Multivector := { terms := [⟨1, [⟨1, []⟩]⟩, ⟨2, [⟨2, [⟨0, 1⟩]⟩]⟩] }
    let w : Multivector := { terms := [⟨2, [⟨-1, []⟩]⟩, ⟨4, [⟨1, [⟨1, -1⟩]⟩]⟩] }
    let a : Multivector := { terms := [⟨1, [⟨3, []⟩]⟩, ⟨4, [⟨1, [⟨0, 1⟩]⟩]⟩] }
    ((∀ u ∈ [v, w], u.Integral A.dim) ∧ (∀ u ∈ [v, w], u.OfGrade 1) ∧ a.Integral A.dim ∧
      a.OfGrade 1) ∧
    ∃ s d, (do A.sandwich a (← A.productOf [v, w])) = .ok s ∧ s.OfGrade 1 ∧
      A.geometric s s = .ok d ∧
      (do A.geometric (← A.squaredNorm [v, w]) (← A.geometric a a)) = .ok d := by
  intro A v w a
  have integrals : ∀ u ∈ [v, w], u.Integral A.dim := by decide +kernel
  have vectors : ∀ u ∈ [v, w], u.OfGrade 1 := by decide +kernel
  have integral : a.Integral A.dim := by decide +kernel
  have vector : a.OfGrade 1 := by decide +kernel
  exact ⟨⟨integrals, vectors, integral, vector⟩,
    sandwich_versor A integrals vectors integral vector⟩

end Algebra

end Clifford
