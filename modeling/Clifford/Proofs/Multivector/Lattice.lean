import Clifford.Proofs.Multivector.Ring

/-! The lattice of whole values: geometric products keep whole coefficients over any basis, although the
changes of basis halve them on the way. -/

namespace Clifford

open Finsupp

namespace PairMatrix

/-- The multiple in which a blade stays, for the vectors of the pair that it holds. -/
def stay (matrix : PairMatrix) (low high : Bool) : Rat :=
  bif low == high then bif low then matrix.det else 1 else matrix.own low

/-- The multiple in which a blade goes over into the one with the other vectors of the pair. -/
def cross (matrix : PairMatrix) (low high : Bool) : Rat :=
  bif low == high then 0 else matrix.other low

end PairMatrix

namespace Metric

open Blade

variable {m : Metric}

/-- Every blade goes over into itself and the one with the other vectors of the pair. -/
theorem frame_pair {M : Type} [AddCommGroup M] [Module Rat M] (matrix : PairMatrix) (blade : Nat)
    (x : M) :
    m.frame matrix (single blade x) =
      matrix.stay (blade.testBit m.pair.1) (blade.testBit m.pair.2) • single blade x +
        matrix.cross (blade.testBit m.pair.1) (blade.testBit m.pair.2) •
          single (m.swapped blade) x := by
  -- Only a blade with one vector of the pair goes over into another one.
  rcases pair_cases m blade with ⟨low, high⟩ | ⟨low, high⟩ | one
  · simp [frame_none x low high, low, high, PairMatrix.stay, PairMatrix.cross]
  · simp [frame_both x low high, low, high, PairMatrix.stay, PairMatrix.cross]
  · have apart : (blade.testBit m.pair.1 == blade.testBit m.pair.2) = false := by simpa using one
    rw [frame_one x one, PairMatrix.stay, PairMatrix.cross, apart, cond_false, cond_false]

section Marked

variable (marked : m.isDiagonal = false) (square : Nat → Int) (a b : Nat)

include marked

/-- The squares of the pair are shared apart from those of the other vectors. -/
theorem sharedSquares_pair :
    sharedSquares square m.n a b = sharedSquares square m.pair.1 a b *
      (if a.testBit m.pair.1 && b.testBit m.pair.1 then square m.pair.1 else 1) *
      (if a.testBit m.pair.2 && b.testBit m.pair.2 then square m.pair.2 else 1) := by
  -- The vectors of the pair are the last two of the space.
  obtain ⟨low, high⟩ := pair_eq marked
  rw [sharedSquares, ← high, Finset.prod_range_succ]
  conv_lhs => rw [← low]
  rw [Finset.prod_range_succ, sharedSquares, low]

/-- Exchanging the vectors of the pair keeps the squares of the other vectors that are shared. -/
theorem sharedSquares_swapped :
    sharedSquares square m.pair.1 a (m.swapped b) = sharedSquares square m.pair.1 a b := by
  -- The other vectors stand below the pair and are not exchanged.
  obtain ⟨low, high⟩ := pair_eq marked
  refine Finset.prod_congr rfl fun i inside => ?_
  have below := Finset.mem_range.mp inside
  rw [testBit_swapped (by omega) (by omega)]

variable (one : square m.pair.1 = 1) (minus : square m.pair.2 = -1)

include one minus

/-- Where the vectors of the pair square to one and to minus one, a blade meets a blade and the one with
the other vectors of the pair alike. -/
theorem twist_swapped_right : twist square m.n a (m.swapped b) = twist square m.n a b := by
  rw [twist, twist, crossings_swapped_right marked, paritySign_add, sharedSquares_pair marked,
    sharedSquares_pair marked, sharedSquares_swapped marked, testBit_swapped_low marked,
    testBit_swapped_high marked, one, minus]
  -- What is left depends on the vectors of the pair that both blades hold.
  cases a.testBit m.pair.1 <;> cases a.testBit m.pair.2 <;> cases b.testBit m.pair.1 <;>
    cases b.testBit m.pair.2 <;> simp

/-- Exchanging the vectors of the pair in the left blade changes the sign where the right blade holds one
of them. -/
theorem twist_swapped_left :
    twist square m.n (m.swapped a) b =
      (bif b.testBit m.pair.1 == b.testBit m.pair.2 then 1 else -1) * twist square m.n a b := by
  have shared (c d : Nat) (n : Nat) : sharedSquares square n c d = sharedSquares square n d c :=
    Finset.prod_congr rfl fun i _ => by rw [Bool.and_comm]
  rw [twist, twist, crossings_swapped_left marked, paritySign_add, sharedSquares_pair marked,
    sharedSquares_pair marked, shared (m.swapped a), sharedSquares_swapped marked, shared b,
    testBit_swapped_low marked, testBit_swapped_high marked, one, minus]
  cases a.testBit m.pair.1 <;> cases a.testBit m.pair.2 <;> cases b.testBit m.pair.1 <;>
    cases b.testBit m.pair.2 <;> simp

end Marked

end Metric

namespace PairMatrix

/-- How often two images of blades multiply to the symmetric difference of the blades, for the vectors of
a pair that they hold. -/
def mixStay (matrix : PairMatrix) (low high low' high' : Bool) : Rat :=
  matrix.stay low high * matrix.stay low' high' +
    (bif low' == high' then 1 else -1) * matrix.cross low high * matrix.cross low' high'

/-- How often two images of blades multiply to the blade with the other vectors of the pair. -/
def mixCross (matrix : PairMatrix) (low high low' high' : Bool) : Rat :=
  matrix.stay low high * matrix.cross low' high' +
    (bif low' == high' then 1 else -1) * matrix.cross low high * matrix.stay low' high'

/-- How often the symmetric difference of two blades occurs in their product, which is taken after a
change of basis and changed back. -/
def productStay (there back : PairMatrix) (low high low' high' : Bool) : Rat :=
  there.mixStay low high low' high' * back.stay (low ^^ low') (high ^^ high') +
    there.mixCross low high low' high' * back.cross (!(low ^^ low')) (!(high ^^ high'))

/-- How often the blade with the other vectors of the pair occurs in the product of two blades. -/
def productCross (there back : PairMatrix) (low high low' high' : Bool) : Rat :=
  there.mixStay low high low' high' * back.cross (low ^^ low') (high ^^ high') +
    there.mixCross low high low' high' * back.stay (!(low ^^ low')) (!(high ^^ high'))

/-- Products over a null pair have whole coefficients. -/
theorem product_null : ∀ low high low' high' : Bool,
    (productStay ⟨-1 / 2, 1 / 2, 1, 1⟩ ⟨-1, 1 / 2, 1, 1 / 2⟩ low high low' high').den = 1 ∧
      (productCross ⟨-1 / 2, 1 / 2, 1, 1⟩ ⟨-1, 1 / 2, 1, 1 / 2⟩ low high low' high').den = 1 := by
  decide +kernel

end PairMatrix

namespace Reading

variable {M : Type} [AddCommGroup M] [Module Rat M] (r : Reading M)

/-- Without another basis products of values are twisted. -/
theorem clifford_of_identity {m : Metric} (kind : BladeProduct) (there : m.toDiagonal = .identity)
    (back : m.toWorking = .identity) (x y : Nat →₀ M) :
    r.clifford kind m x y = r.twisted (kind.coefficient m.signature) x y := by
  rw [r.clifford_apply, Metric.unframed, Metric.framed, there, back, Metric.frame_identity,
    Metric.frame_identity, Metric.frame_identity]

/-- The geometric product of two blades over a null pair is a combination of their symmetric difference
and of the blade with the other vectors of the pair. -/
theorem clifford_single_null {s : Signature} (negative : s.negative = 1 ∧ s.degenerate = 0)
    (positive : 1 ≤ s.positive) (a b : Nat) (x y : M) :
    let m : Metric := .null s negative positive
    r.clifford .geometric m (single a x) (single b y) =
      (BladeProduct.geometric.coefficient s a b *
          PairMatrix.productStay m.toDiagonal m.toWorking (a.testBit m.pair.1) (a.testBit m.pair.2)
            (b.testBit m.pair.1) (b.testBit m.pair.2)) • single (a ^^^ b) (r.mul x y) +
      (BladeProduct.geometric.coefficient s a b *
          PairMatrix.productCross m.toDiagonal m.toWorking (a.testBit m.pair.1) (a.testBit m.pair.2)
            (b.testBit m.pair.1) (b.testBit m.pair.2)) • single (m.swapped (a ^^^ b)) (r.mul x y) := by
  intro m
  have marked : m.isDiagonal = false := rfl
  obtain ⟨one, minus⟩ := Metric.squares_null negative positive
  have right (a b : Nat) : BladeProduct.geometric.coefficient s a (m.swapped b) =
      BladeProduct.geometric.coefficient s a b :=
    Metric.twist_swapped_right marked (Metric.squares s) a b one minus
  have left (a b : Nat) : BladeProduct.geometric.coefficient s (m.swapped a) b =
      (bif b.testBit m.pair.1 == b.testBit m.pair.2 then 1 else -1) *
        BladeProduct.geometric.coefficient s a b :=
    Metric.twist_swapped_left marked (Metric.squares s) a b one minus
  -- Each blade has two images, whose four products lie on two blades, and each of these has two images
  -- in turn.
  rw [r.clifford_apply, Metric.framed, Metric.frame_pair, Metric.frame_pair, Metric.unframed,
    show m.signature = s from rfl]
  simp only [map_add, map_smul, LinearMap.add_apply, LinearMap.smul_apply, r.twisted_single, right,
    left, Metric.xor_swapped, Metric.swapped_xor, Metric.swapped_swapped, Metric.frame_pair,
    Metric.testBit_swapped_low marked, Metric.testBit_swapped_high marked, Nat.testBit_xor,
    PairMatrix.productStay, PairMatrix.productCross, PairMatrix.mixStay, PairMatrix.mixCross,
    Int.cast_mul]
  -- The sign of an exchange is taken over to the rational numbers.
  have sign : (((bif b.testBit m.pair.1 == b.testBit m.pair.2 then 1 else -1 : Int)) : Rat) =
      bif b.testBit m.pair.1 == b.testBit m.pair.2 then 1 else -1 := by
    cases b.testBit m.pair.1 == b.testBit m.pair.2 <;> simp
  rw [sign]
  module

end Reading

/-- The values with whole coefficients, which are the sums of monomials on blades. -/
noncomputable def wholeValues : AddSubgroup (Nat →₀ ((Nat →₀ Rat) →₀ Rat)) :=
  AddSubgroup.closure {x | ∃ blade e, x = single blade (single e 1)}

section Whole

variable {x y : Nat →₀ ((Nat →₀ Rat) →₀ Rat)} {q : Rat}

/-- Whole multiples of whole values are whole. -/
theorem smul_mem_wholeValues (whole : Dyadic 0 q) (member : x ∈ wholeValues) :
    q • x ∈ wholeValues := by
  obtain ⟨n, rfl⟩ := whole
  rw [pow_zero, div_one, Int.cast_smul_eq_zsmul]
  exact zsmul_mem member n

/-- A whole multiple of a monomial on a blade is a whole value. -/
theorem single_mem_wholeValues (whole : Dyadic 0 q) (blade : Nat) (e : Nat →₀ Rat) :
    single blade (single e q) ∈ wholeValues := by
  have multiple : single blade (single e q) = q • single blade (single e (1 : Rat)) := by simp
  rw [multiple]
  exact smul_mem_wholeValues whole (AddSubgroup.subset_closure ⟨blade, e, rfl⟩)

/-- The coefficients of a whole value are whole. -/
theorem dyadic_of_mem_wholeValues (member : x ∈ wholeValues) (blade : Nat) (e : Nat →₀ Rat) :
    Dyadic 0 (x blade e) := by
  -- Whole numbers are closed under sums and negatives.
  induction member using AddSubgroup.closure_induction with
  | mem x generator =>
    obtain ⟨blade', e', rfl⟩ := generator
    rw [single_apply]
    split
    · rw [single_apply]
      split
      · exact .one 0
      · exact .zero 0
    · exact .zero 0
  | zero => exact .zero 0
  | add x y _ _ left right => exact left.add right
  | neg x _ ih => exact ih.neg

/-- Geometric products of whole values are whole. -/
theorem clifford_mem_wholeValues (m : Metric) (left : x ∈ wholeValues) (right : y ∈ wholeValues) :
    Reading.laurent.clifford .geometric m x y ∈ wholeValues := by
  -- Sums and negatives are taken out of both factors, down to monomials on single blades.
  induction left, right using AddSubgroup.closure_induction₂ with
  | mem x y left right =>
    obtain ⟨a, e, rfl⟩ := left
    obtain ⟨b, f, rfl⟩ := right
    have monomial (blade : Nat) :
        single blade (Reading.laurent.mul (single e 1) (single f 1)) ∈ wholeValues := by
      rw [Reading.laurent_mul_single, one_mul]
      exact single_mem_wholeValues (.one 0) blade _
    have twist : Dyadic 0 (BladeProduct.geometric.coefficient m.signature a b : Rat) := .intCast _
    cases m with
    | null s negative positive =>
      -- Halves occur in the images only, since those of the product have whole multiples.
      obtain ⟨stay, cross⟩ := PairMatrix.product_null (a.testBit _) (a.testBit _) (b.testBit _)
        (b.testBit _)
      rw [Reading.clifford_single_null _ negative positive]
      exact add_mem
        (smul_mem_wholeValues (twist.mul (Dyadic.zero_iff.mpr stay)) (monomial _))
        (smul_mem_wholeValues (twist.mul (Dyadic.zero_iff.mpr cross)) (monomial _))
    | diagonal s =>
      rw [Reading.clifford_of_identity _ _ rfl rfl, Reading.twisted_single]
      exact smul_mem_wholeValues twist (monomial _)
    | paired s two_le =>
      rw [Reading.clifford_of_identity _ _ rfl rfl, Reading.twisted_single]
      exact smul_mem_wholeValues twist (monomial _)
  | zero_left y _ => simp
  | zero_right x _ => simp
  | add_left x x' y _ _ _ one other =>
    rw [map_add, LinearMap.add_apply]
    exact add_mem one other
  | add_right x y y' _ _ _ one other =>
    rw [map_add]
    exact add_mem one other
  | neg_left x y _ _ ih =>
    rw [map_neg, LinearMap.neg_apply]
    exact neg_mem ih
  | neg_right x y _ _ ih =>
    rw [map_neg]
    exact neg_mem ih

end Whole

namespace Multivector

variable {m : Metric} {dim k : Nat} {a b : Multivector}

/-- The value of a multivector with whole coefficients is whole. -/
theorem read_mem_wholeValues (whole : DyadicEntries 0 a.entries) :
    Reading.laurent.read a ∈ wholeValues := by
  rw [Reading.read]
  generalize a.entries = es at whole
  induction es with
  | nil => exact zero_mem _
  | cons e rest ih =>
    -- Every entry is a whole multiple of a monomial on its blade.
    rw [weightedSum_cons]
    refine add_mem ?_ (ih fun f inside => whole f (List.mem_cons_of_mem _ inside))
    exact smul_mem_wholeValues (whole e (by simp)) (single_mem_wholeValues (.one 0) _ _)

/-- The value of an integral multivector is whole. -/
theorem Integral.read_mem (integral : a.Integral dim) : Reading.laurent.read a ∈ wholeValues :=
  read_mem_wholeValues integral.toWhole.over.dyadic

/-- The coefficient of an entry of a polynomial is one of the coefficients of its value. -/
theorem Polynomial.coefficient_eq (polynomial : a.Polynomial dim k) {e : Entry}
    (inside : e ∈ a.entries) :
    Reading.laurent.read a e.element (exponents e.monomial.powers) = e.monomial.coefficient := by
  -- Different powers have different exponents, so that no two entries share a coefficient.
  have proper : ∀ e ∈ a.entries, e.monomial.powers ∈ Proper := fun e inside =>
    ⟨(polynomial.inSpace.canonical.entry inside).increasing,
      fun p member => (polynomial.degrees e inside p member).2⟩
  exact (Reading.laurentProbe.read_total (proper e inside) e.element
    polynomial.inSpace.canonical.entries_ordered proper).1 e inside rfl rfl

/-- Polynomials with a whole value are integral. -/
theorem Polynomial.integral (polynomial : a.Polynomial dim k)
    (whole : Reading.laurent.read a ∈ wholeValues) : a.Integral dim where
  plain := polynomial.plain
  canonical := polynomial.inSpace.canonical
  bounded := polynomial.inSpace.bounded
  integers e inside := by
    rw [← polynomial.coefficient_eq inside]
    exact Dyadic.zero_iff.mp (dyadic_of_mem_wholeValues whole _ _)
  degrees e inside p member :=
    have degree := polynomial.degrees e inside p member
    ⟨Dyadic.zero_iff.mp degree.1, degree.2⟩

/-- Integral multivectors have an integral geometric product. -/
theorem Integral.exists_geometric (left : a.Integral m.dim) (right : b.Integral m.dim) :
    ∃ c, BladeProduct.geometric.product m a b = .ok c ∧ c.Integral m.dim ∧
      Reading.laurent.read c =
        Reading.laurent.clifford .geometric m (Reading.laurent.read a) (Reading.laurent.read b) := by
  -- The product exists for polynomials, and its value lies in the lattice.
  obtain ⟨c, product, polynomial, value⟩ :=
    left.polynomial.exists_product .geometric right.polynomial (by decide)
  refine ⟨c, product, polynomial.integral ?_, value⟩
  rw [value]
  exact clifford_mem_wholeValues m left.read_mem right.read_mem

end Multivector

end Clifford
