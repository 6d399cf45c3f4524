import Clifford.Numeric.Dense
import Clifford.Proofs.Dense.Evaluation
import Clifford.Proofs.Multivector.NullBasis

/-! The symbolic geometric product agrees with the dense one over an orthogonal basis: the product of two
multivectors, evaluated at exact numbers, is the dense product of their evaluations. -/

namespace Clifford

namespace DenseAlgebra

/-- The tables of an algebra over an orthogonal basis, with exact signs. -/
def exact (A : Algebra) : DenseAlgebra Rat where
  vectors := A.n
  signs := (List.range A.dim).map fun target => (signRow A target).map Int.cast
  toDiagonal? := none
  toWorking? := none

/-- A sum of numbers over a range of indices. -/
theorem total_range (n : Nat) (f : Nat → Rat) :
    total ((List.range n).map f) = ∑ i ∈ Finset.range n, f i :=
  List.sum_eq_foldl.symm

/-- The dense product gathers, for every blade, the pairs of blades that may give it. -/
theorem product_exact (A : Algebra) (x y : Nat → Rat) :
    (exact A).product ((List.range A.dim).map x) ((List.range A.dim).map y) =
      (List.range A.dim).map fun target => ∑ left ∈ Finset.range A.dim,
        x left * y (left ^^^ target) * A.cayley left (left ^^^ target) target := by
  -- Row by row: the coefficients of the left vector times those of their partners, under the signs.
  have row (target : Nat) (inside : target < A.dim) :
      List.zipWith (· * ·) (((List.range A.dim).map x).mapIdx fun left q =>
          q * ((List.range A.dim).map y).toArray.getD (left ^^^ target) 0)
        ((signRow A target).map Int.cast) =
      (List.range A.dim).map fun left =>
        x left * y (left ^^^ target) * (A.cayley left (left ^^^ target) target : Rat) := by
    refine List.ext_getElem (by simp [signRow]) fun left small _ => ?_
    have lower : left < A.dim := by simpa [signRow] using small
    -- The partner of a blade lies in the space, so that it has a coefficient.
    have partner : left ^^^ target < A.dim := A.metric.xor_lt_dim lower inside
    simp [signRow, partner]
  refine List.ext_getElem (by simp [product, exact]) fun target small _ => ?_
  have inside : target < A.dim := by simpa [product, exact] using small
  simp only [product, exact, List.getElem_mapIdx, List.getElem_map, List.getElem_range]
  rw [row target inside, total_range]

end DenseAlgebra

/-- The coefficient of a product of two blades is found at their symmetric difference alone. -/
theorem Algebra.cayley_eq (A : Algebra) {left target : Nat} (lower : left < A.dim)
    (inside : target < A.dim) :
    A.cayley left (left ^^^ target) target =
      BladeProduct.geometric.coefficient A.metric.signature left (left ^^^ target) := by
  -- The blades of a pair multiply to their symmetric difference, if to anything.
  have power : A.dim = 2 ^ A.metric.n := A.metric.dim_eq_two_pow
  have partner : left ^^^ target < A.dim := A.metric.xor_lt_dim lower inside
  rw [cayley, Metric.base, BladeProduct.compute_diagonal _ _ (power ▸ lower) (power ▸ partner),
    BladeProduct.weighted, Nat.xor_xor_cancel_left]
  by_cases zero : BladeProduct.geometric.coefficient A.metric.signature left (left ^^^ target) = 0
  · -- A product that vanishes is listed on the scalar blade, with a sign of zero.
    simp [zero]
  · simp [zero]

/-- Over an orthogonal basis the product of two vectors is the gathered one on every blade. -/
theorem Dense.product_eq_gathered {A : Algebra} (diagonal : A.metric.isDiagonal = true) (x y : Dense)
    {target : Nat} (inside : target < A.dim) :
    Dense.product .geometric A.metric x y target = ∑ left ∈ Finset.range A.dim,
      x left * y (left ^^^ target) * A.cayley left (left ^^^ target) target := by
  -- The inner sum over all right blades has the partner of the left one as its only summand.
  obtain ⟨s, marked⟩ := Metric.exists_diagonal diagonal
  have power : A.dim = 2 ^ s.n := by
    rw [Algebra.dim, marked, Metric.dim_eq_two_pow]
    rfl
  refine Finset.sum_congr (by rfl) fun left lower => ?_
  replace lower : left < A.dim := Finset.mem_range.mp lower
  have partner : left ^^^ target < A.dim := A.metric.xor_lt_dim lower inside
  rw [A.cayley_eq lower inside, marked]
  -- Only the partner of the left blade multiplies with it to the target.
  rw [Finset.sum_eq_single (left ^^^ target)]
  · rw [BladeProduct.compute_diagonal _ s (power ▸ lower) (power ▸ partner), BladeProduct.weighted,
      Nat.xor_xor_cancel_left]
    split
    · rename_i zero
      simp [Metric.signature, zero]
    · simp [Metric.signature, mul_comm]
  · intro right upper other
    have upper : right < 2 ^ s.n := by
      rw [← marked, ← Algebra.dim, power] at upper
      exact Finset.mem_range.mp upper
    rw [BladeProduct.compute_diagonal _ s (power ▸ lower) upper, BladeProduct.weighted]
    split
    · rename_i zero
      simp [zero]
    · refine if_neg fun same => other ?_
      rw [← same, Nat.xor_xor_cancel_left]
  · intro outside
    rw [← marked] at outside
    exact absurd (Finset.mem_range.mpr partner) outside

section Agreement

open Multivector

variable {A : Algebra} {a b c : Multivector} {ρ : Nat → Rat}

/-- The ids of a list of powers are bounded. -/
theorem exists_bound (ps : List Power) : ∃ bound, ∀ p ∈ ps, p.id < bound := by
  -- The bound is raised above each id in turn.
  induction ps with
  | nil => exact ⟨0, by simp⟩
  | cons p rest ih =>
    obtain ⟨bound, below⟩ := ih
    refine ⟨max bound (p.id + 1), fun q inside => ?_⟩
    rcases List.mem_cons.mp inside with rfl | later
    · exact lt_max_of_lt_right (Nat.lt_succ_self _)
    · exact lt_max_of_lt_left (below q later)

/-- Whole degrees are admitted where no number is zero. -/
theorem exists_admitted (nonzero : ∀ id, ρ id ≠ 0) (left : a.WholeDegrees) (right : b.WholeDegrees) :
    ∃ bound, AdmittedEntries ρ bound a.entries ∧ AdmittedEntries ρ bound b.entries := by
  -- One bound serves all powers of both multivectors.
  obtain ⟨bound, below⟩ := exists_bound (a.entries ++ b.entries |>.flatMap (·.monomial.powers))
  have each {e : Entry} (inside : e ∈ a.entries ++ b.entries) {p : Power}
      (member : p ∈ e.monomial.powers) (whole : p.degree.den = 1) : p.AdmittedBy ρ bound :=
    ⟨below p (List.mem_flatMap.mpr ⟨e, inside, member⟩), Dyadic.zero_iff.mpr whole, .inr (nonzero p.id)⟩
  exact ⟨bound,
    fun e inside p member => each (List.mem_append_left _ inside) member (left e inside p member),
    fun e inside p member => each (List.mem_append_right _ inside) member (right e inside p member)⟩

/-- The value of a multivector lies on its blades. -/
theorem read_bounded {dim : Nat} (bounded : ∀ t ∈ a.terms, t.element < dim) (blade : Nat)
    (nonzero : (Reading.assigned ρ).read a blade ≠ 0) : blade < dim := by
  -- A blade without a term has the value zero.
  by_contra outside
  refine nonzero (Reading.read_of_absent _ fun present => outside ?_)
  obtain ⟨t, member, rfl⟩ := List.mem_map.mp present
  exact bounded t member

/-- The product of multivectors exists, and has the dense product of their values as its value. -/
theorem exists_geometric (diagonal : A.metric.isDiagonal = true) (left : a.Whole A.dim)
    (right : b.Whole A.dim) (leftDegrees : a.WholeDegrees) (rightDegrees : b.WholeDegrees)
    (nonzero : ∀ id, ρ id ≠ 0) :
    ∃ c, A.geometric a b = .ok c ∧ c.Whole A.dim ∧ c.WholeDegrees ∧
      (Reading.assigned ρ).read c = Dense.product .geometric A.metric ((Reading.assigned ρ).read a)
        ((Reading.assigned ρ).read b) := by
  obtain ⟨bound, admittedLeft, admittedRight⟩ := exists_admitted nonzero leftDegrees rightDegrees
  -- Integers stay integers, since the basis is orthogonal, and the gate keeps them.
  have exactly : 0 + 0 + A.metric.slack = 0 := by rw [Metric.slack, diagonal, if_pos rfl]
  have small : 0 + 0 + A.metric.slack ≤ exactBits := by rw [exactly]; decide
  obtain ⟨c, product⟩ := BladeProduct.exists_product .geometric left.over right.over left.plain.1
    right.plain.1 small fun x inside y inside' => multipliable_of_whole
      (fun p member => (admittedLeft x inside p member).2.1)
      (fun q member => (admittedRight y inside' q member).2.1)
  obtain ⟨inSpace, plain, value⟩ := BladeProduct.product_product (r := Reading.assigned ρ) left.over
    right.over small (fun x inside y inside' =>
      Reading.multiplies_assigned (admittedLeft x inside) (admittedRight y inside')) product
  rw [exactly] at inSpace
  refine ⟨c, product, ⟨plain, inSpace.canonical, inSpace.bounded, fun e inside =>
    Dyadic.zero_iff.mp (inSpace.dyadic e inside)⟩, fun e inside p member => ?_, ?_⟩
  · obtain ⟨x, given, y, given', made⟩ := value.source e inside
    exact Dyadic.zero_iff.mp (admitted_mulPowers (admittedLeft x given) (admittedRight y given') made
      p member).2.1
  · rw [← Dense.clifford_eq_product diagonal ρ (read_bounded left.bounded) (read_bounded right.bounded)]
    exact congrArg _ value.value

/-- A multivector has these numbers on the blades of a space, in an evaluation term by term. -/
def Multivector.EvaluatesTo (a : Multivector) (dim : Nat) (ρ : Nat → Rat)
    (deferred : Deferred → Rat → Rat) (numbers : List Rat) : Prop :=
  (Arithmetic.exact ρ deferred).denseColumns dim 1 (Values.row ρ) a = .ok (numbers.map ([·]))

/-- An evaluation gives the values on all blades. -/
theorem evaluatesTo_read {dim : Nat} (whole : a.Whole dim) (degrees : a.WholeDegrees)
    (deferred : Deferred → Rat → Rat) :
    a.EvaluatesTo dim ρ deferred ((List.range dim).map ((Reading.assigned ρ).read a)) := by
  -- The columns have a single row, in which every blade has its value.
  rw [EvaluatesTo, Arithmetic.denseColumns_exact whole.canonical whole.bounded whole.plain degrees,
    List.map_map]
  rfl

namespace Algebra

/-- The symbolic geometric product over an orthogonal basis exists, and evaluates at numbers other than
zero to the dense product of the evaluations, which gathers on each blade the products of the pairs
of blades that differ by it, with the signs of the multiplication table. -/
theorem geometric_evaluates (A : Algebra) (diagonal : A.metric.isDiagonal = true)
    (left : a.Whole A.dim) (right : b.Whole A.dim) (leftDegrees : a.WholeDegrees)
    (rightDegrees : b.WholeDegrees) (nonzero : ∀ id, ρ id ≠ 0) (deferred : Deferred → Rat → Rat) :
    ∃ c x y z, A.geometric a b = .ok c ∧ a.EvaluatesTo A.dim ρ deferred x ∧
      b.EvaluatesTo A.dim ρ deferred y ∧ c.EvaluatesTo A.dim ρ deferred z ∧
      z = (DenseAlgebra.exact A).product x y ∧
      ∀ k < A.dim, z[k]? = some (∑ i ∈ Finset.range A.dim,
        x.getD i 0 * y.getD (i ^^^ k) 0 * A.cayley i (i ^^^ k) k) := by
  -- All three multivectors evaluate to what they are read as, and the product is read as the dense
  -- product.
  obtain ⟨c, product, whole, degrees, value⟩ :=
    exists_geometric diagonal left right leftDegrees rightDegrees nonzero
  refine ⟨c, _, _, _, product, evaluatesTo_read left leftDegrees deferred,
    evaluatesTo_read right rightDegrees deferred, evaluatesTo_read whole degrees deferred, ?_, ?_⟩
  · rw [DenseAlgebra.product_exact, value]
    exact List.map_congr_left fun k inside =>
      Dense.product_eq_gathered diagonal _ _ (List.mem_range.mp inside)
  · intro k inside
    rw [List.getElem?_map, List.getElem?_range inside, Option.map_some, value,
      Dense.product_eq_gathered diagonal _ _ inside]
    refine congrArg some (Finset.sum_congr rfl fun i lower => ?_)
    have lower : i < A.dim := Finset.mem_range.mp lower
    -- Both blades of a pair lie in the space and have their numbers in the lists.
    have partner : i ^^^ k < A.dim := A.metric.xor_lt_dim lower inside
    simp [lower, partner]

/-- Two multivectors over vectors of all three squares, with negative degrees, both constants and a
product of blades that vanishes. -/
theorem geometric_evaluates_degenerate :
    let A : Algebra := { metric := .diagonal ⟨1, 1, 1, by decide⟩ }
    let a : Multivector :=
      { terms := [⟨1, [⟨2, [⟨0, -1⟩, ⟨piId, 1⟩]⟩]⟩, ⟨6, [⟨-3, []⟩, ⟨1, [⟨1, 2⟩]⟩]⟩] }
    let b : Multivector := { terms := [⟨0, [⟨1, [⟨0, 1⟩]⟩]⟩, ⟨5, [⟨5, [⟨eId, -2⟩]⟩]⟩] }
    let ρ : Nat → Rat := fun id => id + 1
    (a.Whole A.dim ∧ b.Whole A.dim ∧ a.WholeDegrees ∧ b.WholeDegrees ∧ ∀ id, ρ id ≠ 0) ∧
      ∃ c x y z, A.geometric a b = .ok c ∧ a.EvaluatesTo A.dim ρ (fun _ q => q) x ∧
        b.EvaluatesTo A.dim ρ (fun _ q => q) y ∧ c.EvaluatesTo A.dim ρ (fun _ q => q) z ∧
        z = (DenseAlgebra.exact A).product x y ∧
        ∀ k < A.dim, z[k]? = some (∑ i ∈ Finset.range A.dim,
          x.getD i 0 * y.getD (i ^^^ k) 0 * A.cayley i (i ^^^ k) k) := by
  intro A a b ρ
  have left : a.Whole A.dim := by decide +kernel
  have right : b.Whole A.dim := by decide +kernel
  have leftDegrees : a.WholeDegrees := by
    rw [WholeDegrees]
    decide
  have rightDegrees : b.WholeDegrees := by
    rw [WholeDegrees]
    decide
  -- No number is zero, so that negative degrees are defined.
  have nonzero : ∀ id, ρ id ≠ 0 := Nat.cast_add_one_ne_zero
  exact ⟨⟨left, right, leftDegrees, rightDegrees, nonzero⟩,
    geometric_evaluates A rfl left right leftDegrees rightDegrees nonzero _⟩

end Algebra

end Agreement

end Clifford
