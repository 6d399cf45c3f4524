import Clifford.Proofs.Multivector.Frame

/-! Products over the working basis: looking blades up directly agrees with going over to the
orthogonal basis and back wherever a product does so. -/

namespace Clifford

open Finsupp

namespace Metric

variable {M : Type} [AddCommGroup M] [Module Rat M] (r : Reading M)
variable {m : Metric} {matrix : PairMatrix} {kind : BladeProduct} {a b : Nat} (x y : M)

/-- A blade touches a marked pair if it holds one of its vectors. -/
theorem touches_iff (marked : m.isDiagonal = false) {blade : Nat} :
    m.touches blade = true ↔ blade.testBit m.pair.1 = true ∨ blade.testBit m.pair.2 = true := by
  have pair := pair_eq marked
  have below : 2 ^ m.pair.1 < 2 ^ m.pair.2 := Nat.pow_lt_pow_right (by decide) (by omega)
  have mask : m.pairMask = 2 ^ m.pair.2 ||| 2 ^ m.pair.1 := by
    have disjoint := Nat.two_pow_add_eq_or_of_lt below 1
    rw [mul_one] at disjoint
    rw [← disjoint, pairMask, Blade.vector_eq, Blade.vector_eq, Nat.add_comm]
  -- The bits of the mask are those of the two vectors.
  have bits (i : Nat) : (blade &&& m.pairMask).testBit i =
      (blade.testBit i && (decide (m.pair.2 = i) || decide (m.pair.1 = i))) := by
    rw [mask, Nat.testBit_and, Nat.testBit_or, Nat.testBit_two_pow, Nat.testBit_two_pow]
  simp only [touches, marked, Bool.not_false, Bool.true_and, decide_eq_true_eq]
  constructor
  · -- A bit that is shared with the mask is one of its two.
    intro nonzero
    obtain ⟨i, set⟩ := Nat.exists_testBit_of_ne_zero nonzero
    rw [bits] at set
    simp only [Bool.and_eq_true, Bool.or_eq_true, decide_eq_true_eq] at set
    obtain ⟨held, rfl | rfl⟩ := set
    · exact .inr held
    · exact .inl held
  · rintro touching zero
    have low := bits m.pair.1
    have high := bits m.pair.2
    rw [zero, Nat.zero_testBit] at low high
    simp_all

/-- A blade that does not touch the pair holds neither of its vectors. -/
theorem untouched (marked : m.isDiagonal = false) {blade : Nat} (aside : m.touches blade = false) :
    blade.testBit m.pair.1 = false ∧ blade.testBit m.pair.2 = false := by
  have neither := mt (touches_iff marked).mpr (Bool.eq_false_iff.mp aside)
  rwa [not_or, Bool.not_eq_true, Bool.not_eq_true] at neither

/-- Blades that share a vector have the exterior product zero. -/
theorem twisted_shared {i : Nat} (left : a.testBit i = true) (right : b.testBit i = true) :
    r.twisted (BladeProduct.exterior.coefficient m.signature) (single a x) (single b y) = 0 := by
  rw [r.twisted_single, exterior_shared left right]
  simp

/-- Blades that hold the same one of the vectors of the pair have the exterior product zero. -/
theorem twisted_same (left : a.testBit m.pair.1 ≠ a.testBit m.pair.2)
    (right : b.testBit m.pair.1 ≠ b.testBit m.pair.2) (same : a.testBit m.pair.1 = b.testBit m.pair.1) :
    r.twisted (BladeProduct.exterior.coefficient m.signature) (single a x) (single b y) = 0 := by
  cases low : a.testBit m.pair.1 with
  | true => exact twisted_shared r x y low (same ▸ low)
  | false =>
    -- Both hold the other vector, since each of them holds one.
    have highA : a.testBit m.pair.2 = true := by simpa [low] using left
    have highB : b.testBit m.pair.2 = true := by simpa [← same, low] using right
    exact twisted_shared r x y highA highB

section Marked

variable (marked : m.isDiagonal = false)

include marked

/-- A change of basis commutes with the product by a blade apart from the pair from the left. -/
theorem frame_twisted_right (low : a.testBit m.pair.1 = false)
    (high : a.testBit m.pair.2 = false) :
    m.frame matrix (r.twisted (kind.coefficient m.signature) (single a x) (single b y)) =
      r.twisted (kind.coefficient m.signature) (m.frame matrix (single a x))
        (m.frame matrix (single b y)) := by
  -- The product holds as much of the pair as the right factor does.
  have lowBit : (a ^^^ b).testBit m.pair.1 = b.testBit m.pair.1 := by simp [low]
  have highBit : (a ^^^ b).testBit m.pair.2 = b.testBit m.pair.2 := by simp [high]
  rw [frame_none x low high, r.twisted_single, map_smul]
  rcases pair_cases m b with ⟨lowB, highB⟩ | ⟨lowB, highB⟩ | one
  · -- Neither factor touches the pair.
    rw [frame_none _ (lowBit.trans lowB) (highBit.trans highB), frame_none y lowB highB,
      r.twisted_single]
  · -- The right factor holds both vectors, so that both sides are multiplied by the determinant.
    rw [frame_both _ (lowBit.trans lowB) (highBit.trans highB), frame_both y lowB highB, map_smul,
      r.twisted_single, smul_comm]
  · -- The right factor holds one vector, and the signs of its two images agree.
    rw [frame_one _ (by rwa [lowBit, highBit]), frame_one y one, lowBit]
    simp only [map_add, map_smul, r.twisted_single, xor_swapped,
      coefficient_swapped_right marked low high one]
    module

/-- A change of basis commutes with the product by a blade apart from the pair from the right. -/
theorem frame_twisted_left (low : b.testBit m.pair.1 = false) (high : b.testBit m.pair.2 = false) :
    m.frame matrix (r.twisted (kind.coefficient m.signature) (single a x) (single b y)) =
      r.twisted (kind.coefficient m.signature) (m.frame matrix (single a x))
        (m.frame matrix (single b y)) := by
  -- The product holds as much of the pair as the left factor does.
  have lowBit : (a ^^^ b).testBit m.pair.1 = a.testBit m.pair.1 := by simp [low]
  have highBit : (a ^^^ b).testBit m.pair.2 = a.testBit m.pair.2 := by simp [high]
  rw [frame_none y low high, r.twisted_single, map_smul]
  rcases pair_cases m a with ⟨lowA, highA⟩ | ⟨lowA, highA⟩ | one
  · rw [frame_none _ (lowBit.trans lowA) (highBit.trans highA), frame_none x lowA highA,
      r.twisted_single]
  · rw [frame_both _ (lowBit.trans lowA) (highBit.trans highA), frame_both x lowA highA, map_smul,
      LinearMap.smul_apply, r.twisted_single, smul_comm]
  · rw [frame_one _ (by rwa [lowBit, highBit]), frame_one x one, lowBit]
    simp only [map_add, map_smul, LinearMap.add_apply, LinearMap.smul_apply, r.twisted_single,
      swapped_xor, coefficient_swapped_left marked low high one]
    module

/-- Exchanging the vectors of the pair in both factors changes the sign of an exterior product. -/
theorem twisted_swapped (left : a.testBit m.pair.1 ≠ a.testBit m.pair.2)
    (right : b.testBit m.pair.1 ≠ b.testBit m.pair.2)
    (apart : b.testBit m.pair.1 = a.testBit m.pair.2) :
    r.twisted (BladeProduct.exterior.coefficient m.signature) (single (m.swapped a) x)
        (single (m.swapped b) y) =
      -r.twisted (BladeProduct.exterior.coefficient m.signature) (single a x) (single b y) := by
  rw [r.twisted_single, r.twisted_single, exterior_swapped_swapped marked left right apart,
    xor_swapped, swapped_xor, swapped_swapped]
  simp

variable (matrix) in
/-- The images of a blade that touches the pair touch it. -/
theorem frame_touching (touching : a.testBit m.pair.1 = true ∨ a.testBit m.pair.2 = true) :
    ∃ (p q : Rat) (c : Nat), (c.testBit m.pair.1 = true ∨ c.testBit m.pair.2 = true) ∧
      ∀ x : M, m.frame matrix (single a x) = p • single a x + q • single c x := by
  -- With both vectors a blade is its own image, and with one it goes over into both.
  rcases pair_cases m a with none | ⟨low, high⟩ | one
  · simp_all
  · exact ⟨matrix.det, 0, a, touching, fun x => by rw [frame_both x low high]; simp⟩
  · have other := one_swapped marked one
    refine ⟨_, _, m.swapped a, ?_, fun x => frame_one x one⟩
    cases low : (m.swapped a).testBit m.pair.1 <;> simp_all

/-- A change of basis commutes with the exterior product of two blades that touch the pair, one of
which holds both vectors: nothing is left on either side. -/
theorem frame_exterior_both (touchingA : a.testBit m.pair.1 = true ∨ a.testBit m.pair.2 = true)
    (touchingB : b.testBit m.pair.1 = true ∨ b.testBit m.pair.2 = true)
    (both : (a.testBit m.pair.1 = true ∧ a.testBit m.pair.2 = true) ∨
      (b.testBit m.pair.1 = true ∧ b.testBit m.pair.2 = true)) :
    m.frame matrix (r.twisted (BladeProduct.exterior.coefficient m.signature) (single a x)
        (single b y)) =
      r.twisted (BladeProduct.exterior.coefficient m.signature) (m.frame matrix (single a x))
        (m.frame matrix (single b y)) := by
  -- Every image of the other factor shares a vector with the one that holds both.
  rcases both with ⟨low, high⟩ | ⟨low, high⟩
  · have none {c : Nat} (touching : c.testBit m.pair.1 = true ∨ c.testBit m.pair.2 = true) :
        r.twisted (BladeProduct.exterior.coefficient m.signature) (single a x) (single c y) = 0 :=
      touching.elim (twisted_shared r x y low) (twisted_shared r x y high)
    obtain ⟨p, q, c, touchingC, image⟩ := frame_touching (M := M) matrix marked touchingB
    rw [none touchingB, frame_both x low high, image]
    simp only [map_add, map_smul, map_zero, LinearMap.smul_apply, none touchingB, none touchingC,
      smul_zero, add_zero]
  · have none {c : Nat} (touching : c.testBit m.pair.1 = true ∨ c.testBit m.pair.2 = true) :
        r.twisted (BladeProduct.exterior.coefficient m.signature) (single c x) (single b y) = 0 :=
      touching.elim (twisted_shared r x y · low) (twisted_shared r x y · high)
    obtain ⟨p, q, c, touchingC, image⟩ := frame_touching (M := M) matrix marked touchingA
    rw [none touchingA, frame_both y low high, image]
    simp only [map_add, map_smul, map_zero, LinearMap.add_apply, LinearMap.smul_apply,
      none touchingA, none touchingC, smul_zero, add_zero]

/-- A change of basis commutes with the exterior product of blades that hold the same one of the vectors
of the pair, which vanishes on both sides. -/
theorem frame_exterior_same (oneA : a.testBit m.pair.1 ≠ a.testBit m.pair.2)
    (oneB : b.testBit m.pair.1 ≠ b.testBit m.pair.2) (same : a.testBit m.pair.1 = b.testBit m.pair.1) :
    m.frame matrix (r.twisted (BladeProduct.exterior.coefficient m.signature) (single a x)
        (single b y)) =
      r.twisted (BladeProduct.exterior.coefficient m.signature) (m.frame matrix (single a x))
        (m.frame matrix (single b y)) := by
  have swapA := one_swapped marked oneA
  have swapB := one_swapped marked oneB
  have low : (m.swapped a).testBit m.pair.1 = (m.swapped b).testBit m.pair.1 := by
    rw [testBit_swapped_low marked, testBit_swapped_low marked, same]
  have apart : b.testBit m.pair.1 = (m.swapped a).testBit m.pair.2 := by
    rw [testBit_swapped_high marked, ← same]
    revert oneA
    cases a.testBit m.pair.1 <;> cases a.testBit m.pair.2 <;> simp
  -- The products of equal vectors vanish, and the two mixed products cancel.
  have opposite := twisted_swapped r (a := m.swapped a) (b := b) x y marked swapA oneB apart
  rw [swapped_swapped] at opposite
  rw [frame_one x oneA, frame_one y oneB]
  simp only [map_add, map_smul, LinearMap.add_apply, LinearMap.smul_apply]
  rw [twisted_same r x y oneA oneB same, twisted_same r x y swapA swapB low, opposite, same]
  simp only [map_zero]
  module

/-- A change of basis commutes with the exterior product of blades that hold different ones of the vectors
of the pair, since a minor of its matrix is the determinant. -/
theorem frame_exterior_other (oneA : a.testBit m.pair.1 ≠ a.testBit m.pair.2)
    (oneB : b.testBit m.pair.1 ≠ b.testBit m.pair.2) (other : a.testBit m.pair.1 ≠ b.testBit m.pair.1) :
    m.frame matrix (r.twisted (BladeProduct.exterior.coefficient m.signature) (single a x)
        (single b y)) =
      r.twisted (BladeProduct.exterior.coefficient m.signature) (m.frame matrix (single a x))
        (m.frame matrix (single b y)) := by
  have swapA := one_swapped marked oneA
  have swapB := one_swapped marked oneB
  have differ : b.testBit m.pair.1 = !a.testBit m.pair.1 := by
    revert other
    cases a.testBit m.pair.1 <;> cases b.testBit m.pair.1 <;> simp
  have highA : a.testBit m.pair.2 = !a.testBit m.pair.1 := by
    revert oneA
    cases a.testBit m.pair.1 <;> cases a.testBit m.pair.2 <;> simp
  have highB : b.testBit m.pair.2 = a.testBit m.pair.1 := by
    revert oneB
    rw [differ]
    cases a.testBit m.pair.1 <;> cases b.testBit m.pair.2 <;> simp
  -- Together they hold both vectors.
  have lowAB : (a ^^^ b).testBit m.pair.1 = true := by
    rw [Nat.testBit_xor, differ]
    cases a.testBit m.pair.1 <;> rfl
  have highAB : (a ^^^ b).testBit m.pair.2 = true := by
    rw [Nat.testBit_xor, highA, highB]
    cases a.testBit m.pair.1 <;> rfl
  have mixedLeft : a.testBit m.pair.1 = (m.swapped b).testBit m.pair.1 := by
    rw [testBit_swapped_low marked, differ, Bool.not_not]
  have mixedRight : (m.swapped a).testBit m.pair.1 = b.testBit m.pair.1 := by
    rw [testBit_swapped_low marked, differ]
  -- Images that hold the same vector have no product, and a minor of the matrix is left.
  have opposite := twisted_swapped r (a := a) (b := b) x y marked oneA oneB (differ.trans highA.symm)
  rw [frame_one x oneA, frame_one y oneB]
  simp only [map_add, map_smul, LinearMap.add_apply, LinearMap.smul_apply]
  rw [twisted_same r x y oneA swapB mixedLeft, twisted_same r x y swapA oneB mixedRight, opposite,
    r.twisted_single, map_smul, frame_both _ lowAB highAB, matrix.det_eq (a.testBit m.pair.1), differ]
  module

/-- A change of basis commutes with the exterior product of blades that hold one vector of the pair
each, since the minors of the pair are multiplied by the determinant. -/
theorem frame_exterior_one (oneA : a.testBit m.pair.1 ≠ a.testBit m.pair.2)
    (oneB : b.testBit m.pair.1 ≠ b.testBit m.pair.2) :
    m.frame matrix (r.twisted (BladeProduct.exterior.coefficient m.signature) (single a x)
        (single b y)) =
      r.twisted (BladeProduct.exterior.coefficient m.signature) (m.frame matrix (single a x))
        (m.frame matrix (single b y)) := by
  by_cases same : a.testBit m.pair.1 = b.testBit m.pair.1
  · exact frame_exterior_same r x y marked oneA oneB same
  · exact frame_exterior_other r x y marked oneA oneB same

/-- A change of basis commutes with the exterior product. -/
theorem frame_exterior :
    m.frame matrix (r.twisted (BladeProduct.exterior.coefficient m.signature) (single a x)
        (single b y)) =
      r.twisted (BladeProduct.exterior.coefficient m.signature) (m.frame matrix (single a x))
        (m.frame matrix (single b y)) := by
  have touching {c : Nat} (one : c.testBit m.pair.1 ≠ c.testBit m.pair.2) :
      c.testBit m.pair.1 = true ∨ c.testBit m.pair.2 = true := by
    cases low : c.testBit m.pair.1 <;> simp_all
  -- How many vectors of the pair each blade holds decides which law applies.
  rcases pair_cases m a with ⟨lowA, highA⟩ | bothA | oneA
  · exact frame_twisted_right r x y marked lowA highA
  · rcases pair_cases m b with ⟨lowB, highB⟩ | bothB | oneB
    · exact frame_twisted_left r x y marked lowB highB
    · exact frame_exterior_both r x y marked (.inl bothA.1) (.inl bothB.1) (.inl bothA)
    · exact frame_exterior_both r x y marked (.inl bothA.1) (touching oneB) (.inl bothA)
  · rcases pair_cases m b with ⟨lowB, highB⟩ | bothB | oneB
    · exact frame_twisted_left r x y marked lowB highB
    · exact frame_exterior_both r x y marked (touching oneA) (.inl bothB.1) (.inr bothB)
    · exact frame_exterior_one r x y marked oneA oneB

end Marked

end Metric

end Clifford
