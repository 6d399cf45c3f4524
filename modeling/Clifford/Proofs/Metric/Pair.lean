import Clifford.Proofs.Metric.Coefficient

/-! Marked pairs: how structure coefficients change when the vectors of the pair are exchanged in the
blades that hold one of them. -/

namespace Clifford

open Blade

namespace Blade

/-- A single vector lies below the higher indices. -/
theorem below_vector (index i : Nat) : below (vector index) i = if index < i then 1 else 0 := by
  -- The vector is counted if it is one of the indices that are summed over.
  simp only [below, testBit_vector, decide_eq_true_eq]
  rw [Finset.sum_ite_eq (Finset.range i) index fun _ => (1 : ZMod 2)]
  simp

/-- The vectors below an index and the one at it lie below the next index. -/
theorem below_succ (blade index : Nat) :
    below blade (index + 1) = below blade index + if blade.testBit index then 1 else 0 := by
  rw [below, Finset.sum_range_succ, below]

/-- The shared squares depend on the common vectors alone. -/
theorem sharedSquares_congr {square : Nat → Int} {n a b a' b' : Nat} (common : a' &&& b' = a &&& b) :
    sharedSquares square n a' b' = sharedSquares square n a b := by
  -- Every factor asks whether its vector is a common one.
  refine Finset.prod_congr rfl fun i _ => ?_
  rw [← Nat.testBit_and, common, Nat.testBit_and]

/-- Blades without a common vector share no squares. -/
theorem sharedSquares_disjoint (square : Nat → Int) (n : Nat) {a b : Nat} (disjoint : a &&& b = 0) :
    sharedSquares square n a b = 1 := by
  -- The scalar blade has no vector in common with itself either.
  rw [← sharedSquares_zero_left square n 0]
  exact sharedSquares_congr (disjoint.trans (Nat.and_self 0).symm)

end Blade

namespace Metric

/-- A metric with a marked pair has two vectors. -/
theorem two_le_of_marked {m : Metric} (marked : m.isDiagonal = false) : 2 ≤ m.n := by
  cases m with
  | diagonal => simp [isDiagonal] at marked
  | paired s two_le => exact two_le
  | null s single positive =>
    simp only [n, signature, Signature.n]
    omega

/-- The vectors that a null pair replaces square to one and to minus one. -/
theorem squares_null {s : Signature} (single : s.negative = 1 ∧ s.degenerate = 0)
    (positive : 1 ≤ s.positive) :
    squares s (null s single positive).pair.1 = 1 ∧
      squares s (null s single positive).pair.2 = -1 := by
  -- The positive vectors come first and the single negative one last.
  have low : (null s single positive).pair.1 + 1 = s.positive := by
    show s.positive + s.negative + s.degenerate - 2 + 1 = s.positive
    omega
  have high : (null s single positive).pair.2 = s.positive := by
    show s.positive + s.negative + s.degenerate - 1 = s.positive
    omega
  constructor
  · rw [squares, diagonalSquare, if_pos (by omega)]
  · rw [squares, diagonalSquare, if_neg (by omega), if_pos (by omega)]

/-- A blade with the other vector of the pair. -/
def swapped (m : Metric) (blade : Nat) : Nat :=
  blade ^^^ Blade.vector m.pair.1 ^^^ Blade.vector m.pair.2

/-- A blade holds neither, both or one of the vectors of the pair. -/
theorem pair_cases (m : Metric) (blade : Nat) :
    (blade.testBit m.pair.1 = false ∧ blade.testBit m.pair.2 = false) ∨
      (blade.testBit m.pair.1 = true ∧ blade.testBit m.pair.2 = true) ∨
        blade.testBit m.pair.1 ≠ blade.testBit m.pair.2 := by
  cases blade.testBit m.pair.1 <;> cases blade.testBit m.pair.2 <;> simp

variable {m : Metric}

/-- Swapping twice changes nothing. -/
@[simp] theorem swapped_swapped (blade : Nat) : m.swapped (m.swapped blade) = blade := by
  -- Both exchanges together flip either bit twice.
  rw [swapped, swapped, Nat.xor_right_comm (blade ^^^ Blade.vector m.pair.1),
    Nat.xor_assoc (blade ^^^ Blade.vector m.pair.1 ^^^ Blade.vector m.pair.1), Nat.xor_self,
    Nat.xor_zero, Nat.xor_assoc, Nat.xor_self, Nat.xor_zero]

/-- Swapping in the right factor swaps in the product. -/
theorem xor_swapped (a b : Nat) : a ^^^ m.swapped b = m.swapped (a ^^^ b) := by
  rw [swapped, swapped, ← Nat.xor_assoc, ← Nat.xor_assoc]

/-- Swapping in the left factor swaps in the product. -/
theorem swapped_xor (a b : Nat) : m.swapped a ^^^ b = m.swapped (a ^^^ b) := by
  rw [Nat.xor_comm, xor_swapped, Nat.xor_comm]

/-- A swapped blade keeps its other vectors. -/
theorem testBit_swapped {blade i : Nat} (low : i ≠ m.pair.1) (high : i ≠ m.pair.2) :
    (m.swapped blade).testBit i = blade.testBit i := by
  simp [swapped, low.symm, high.symm]

/-- Blades apart from the pair have the same vectors in common with a blade and with its swap. -/
theorem and_swapped {a : Nat} (low : a.testBit m.pair.1 = false) (high : a.testBit m.pair.2 = false)
    (b : Nat) : a &&& m.swapped b = a &&& b := by
  -- Bits of the pair are lost on both sides, and the others are not exchanged.
  refine Nat.eq_of_testBit_eq fun i => ?_
  rw [Nat.testBit_and, Nat.testBit_and]
  by_cases first : i = m.pair.1
  · rw [first, low, Bool.false_and, Bool.false_and]
  · by_cases second : i = m.pair.2
    · rw [second, high, Bool.false_and, Bool.false_and]
    · rw [testBit_swapped first second]

/-- A blade with one vector of the pair does not lie within a blade apart from it. -/
theorem not_within_untouched {a b : Nat} (low : a.testBit m.pair.1 = false)
    (high : a.testBit m.pair.2 = false) (one : b.testBit m.pair.1 ≠ b.testBit m.pair.2) :
    b &&& a ≠ b := by
  -- The vector of the pair that the blade holds is not in the other blade.
  intro within
  have inside := (and_eq_left_iff b a).mp within
  have first := inside m.pair.1
  have second := inside m.pair.2
  rw [low] at first
  rw [high] at second
  simp_all

/-- A blade with one vector of the pair is not the scalar one. -/
theorem ne_zero_of_one {b : Nat} (one : b.testBit m.pair.1 ≠ b.testBit m.pair.2) : b ≠ 0 := by
  rintro rfl
  simp at one

section Marked

variable (marked : m.isDiagonal = false)

include marked

/-- The vectors of a marked pair are the two highest. -/
theorem pair_eq : m.pair.1 + 1 = m.pair.2 ∧ m.pair.2 + 1 = m.n := by
  have := two_le_of_marked marked
  rw [pair]
  omega

/-- A swapped blade has the lower vector of the pair where the blade does not. -/
theorem testBit_swapped_low (blade : Nat) :
    (m.swapped blade).testBit m.pair.1 = !blade.testBit m.pair.1 := by
  have := pair_eq marked
  simp [swapped, show m.pair.2 ≠ m.pair.1 by omega]

/-- A swapped blade has the higher vector of the pair where the blade does not. -/
theorem testBit_swapped_high (blade : Nat) :
    (m.swapped blade).testBit m.pair.2 = !blade.testBit m.pair.2 := by
  have := pair_eq marked
  simp [swapped, show m.pair.1 ≠ m.pair.2 by omega]

/-- A swapped blade still holds one vector of the pair. -/
theorem one_swapped {b : Nat} (one : b.testBit m.pair.1 ≠ b.testBit m.pair.2) :
    (m.swapped b).testBit m.pair.1 ≠ (m.swapped b).testBit m.pair.2 := by
  -- The exchange flips both bits, so they still differ.
  rw [testBit_swapped_low marked, testBit_swapped_high marked]
  simpa using one

section Coefficient

variable {kind : BladeProduct} {a b : Nat}

/-- Exchanging the vectors of the pair in the right blade is seen by the higher one in the left blade
alone. -/
theorem crossings_swapped_right (a b : Nat) :
    crossings m.n a (m.swapped b) = crossings m.n a b + if a.testBit m.pair.2 then 1 else 0 := by
  have pair := pair_eq marked
  -- Only the higher vector of the left blade lies above the lower one.
  have overLow : crossings m.n a (Blade.vector m.pair.1) = if a.testBit m.pair.2 then 1 else 0 := by
    rw [crossings, Finset.sum_eq_single_of_mem m.pair.2 (Finset.mem_range.mpr (by omega))]
    · rw [below_vector, if_pos (show m.pair.1 < m.pair.2 by omega)]
    · intro i inside other
      have inside := Finset.mem_range.mp inside
      have notAbove : ¬ m.pair.1 < i := by omega
      rw [below_vector, if_neg notAbove, ite_self]
  -- No vector of the space lies above the higher one of the pair.
  have overHigh : crossings m.n a (Blade.vector m.pair.2) = 0 := by
    refine Finset.sum_eq_zero fun i inside => ?_
    have inside := Finset.mem_range.mp inside
    have notAbove : ¬ m.pair.2 < i := by omega
    rw [below_vector, if_neg notAbove, ite_self]
  rw [swapped, crossings_xor_right, crossings_xor_right, overLow, overHigh, add_zero]

/-- Exchanging the vectors of the pair in the left blade is seen by the lower one in the right blade
alone. -/
theorem crossings_swapped_left (a b : Nat) :
    crossings m.n (m.swapped a) b = crossings m.n a b + if b.testBit m.pair.1 then 1 else 0 := by
  have pair := pair_eq marked
  -- Between the two vectors of the pair there is only the lower one itself.
  have step : below b m.pair.2 = below b m.pair.1 + if b.testBit m.pair.1 then 1 else 0 := by
    rw [← pair.1, below_succ]
  rw [swapped, crossings_xor_left, crossings_xor_left, crossings_vector (by omega),
    crossings_vector (by omega), step, add_assoc, ← add_assoc (below b m.pair.1),
    CharTwo.add_self_eq_zero, zero_add]

/-- Exchanging the vectors of the pair in blades that hold different ones crosses them once. -/
theorem crossings_swapped_swapped (apart : b.testBit m.pair.1 = a.testBit m.pair.2) :
    crossings m.n (m.swapped a) (m.swapped b) = crossings m.n a b + 1 := by
  rw [crossings_swapped_left marked, crossings_swapped_right marked, testBit_swapped_low marked, apart,
    add_assoc]
  cases a.testBit m.pair.2 <;> simp

/-- A blade apart from the pair meets both vectors of the pair alike from the left. -/
theorem coefficient_swapped_right (low : a.testBit m.pair.1 = false)
    (high : a.testBit m.pair.2 = false) (one : b.testBit m.pair.1 ≠ b.testBit m.pair.2) :
    kind.coefficient m.signature a (m.swapped b) = kind.coefficient m.signature a b := by
  -- All that the products ask about the two blades is the same for the exchanged one.
  have common := and_swapped low high b
  have without := not_within_untouched low high one
  have without' := not_within_untouched low high (one_swapped marked one)
  have present := ne_zero_of_one one
  have present' := ne_zero_of_one (one_swapped marked one)
  have keep : kind.keeps a (m.swapped b) = kind.keeps a b := by
    cases kind <;> simp [BladeProduct.keeps, common, without, without', present, present']
  rw [BladeProduct.coefficient, BladeProduct.coefficient, keep, twist, twist,
    show m.signature.n = m.n from rfl, crossings_swapped_right marked, high, if_neg Bool.false_ne_true,
    add_zero, sharedSquares_congr common]

/-- A blade apart from the pair meets both vectors of the pair alike from the right. -/
theorem coefficient_swapped_left (low : b.testBit m.pair.1 = false)
    (high : b.testBit m.pair.2 = false) (one : a.testBit m.pair.1 ≠ a.testBit m.pair.2) :
    kind.coefficient m.signature (m.swapped a) b = kind.coefficient m.signature a b := by
  -- All that the products ask about the two blades is the same for the exchanged one.
  have common : m.swapped a &&& b = a &&& b := by
    rw [Nat.and_comm, and_swapped low high a, Nat.and_comm]
  have without := not_within_untouched low high one
  have without' := not_within_untouched low high (one_swapped marked one)
  rw [common] at without'
  have present := ne_zero_of_one one
  have present' := ne_zero_of_one (one_swapped marked one)
  have reverse : b &&& m.swapped a = b &&& a := and_swapped low high a
  have keep : kind.keeps (m.swapped a) b = kind.keeps a b := by
    cases kind <;>
      simp [BladeProduct.keeps, common, reverse, without, without', present, present']
  rw [BladeProduct.coefficient, BladeProduct.coefficient, keep, twist, twist,
    show m.signature.n = m.n from rfl, crossings_swapped_left marked, low, if_neg Bool.false_ne_true,
    add_zero, sharedSquares_congr common]

/-- Exchanging the vectors of the pair in an exterior product changes its sign. -/
theorem exterior_swapped_swapped (left : a.testBit m.pair.1 ≠ a.testBit m.pair.2)
    (right : b.testBit m.pair.1 ≠ b.testBit m.pair.2)
    (apart : b.testBit m.pair.1 = a.testBit m.pair.2) :
    BladeProduct.exterior.coefficient m.signature (m.swapped a) (m.swapped b) =
      -BladeProduct.exterior.coefficient m.signature a b := by
  -- Neither vector of the pair is common, before or after the exchange.
  have common : m.swapped a &&& m.swapped b = a &&& b := by
    refine Nat.eq_of_testBit_eq fun i => ?_
    rw [Nat.testBit_and, Nat.testBit_and]
    by_cases first : i = m.pair.1
    · rw [first, testBit_swapped_low marked, testBit_swapped_low marked, apart]
      cases low : a.testBit m.pair.1 <;> cases high : a.testBit m.pair.2 <;> simp_all
    · by_cases second : i = m.pair.2
      · rw [second, testBit_swapped_high marked, testBit_swapped_high marked]
        cases low : a.testBit m.pair.1 <;> cases high : a.testBit m.pair.2 <;> simp_all
      · rw [testBit_swapped first second, testBit_swapped first second]
  simp only [BladeProduct.coefficient, BladeProduct.keeps, common, decide_eq_true_eq]
  split
  · -- Disjoint blades differ by one crossing, and no others have a coefficient.
    rename_i disjoint
    rw [twist, twist, sharedSquares_disjoint _ _ disjoint,
      sharedSquares_disjoint _ _ (common.trans disjoint), show m.signature.n = m.n from rfl,
      crossings_swapped_swapped marked apart, paritySign_add]
    rw [paritySign_one]
    ring
  · rfl

end Coefficient

end Marked

/-- Blades with a common vector have no exterior product. -/
theorem exterior_shared {s : Signature} {a b i : Nat} (left : a.testBit i = true)
    (right : b.testBit i = true) : BladeProduct.exterior.coefficient s a b = 0 := by
  -- The common vector is a bit of what the blades share.
  have shared : a &&& b ≠ 0 := by
    intro zero
    have := congrArg (·.testBit i) zero
    simp [left, right] at this
  simp [BladeProduct.coefficient, BladeProduct.keeps, shared]

end Metric

end Clifford
