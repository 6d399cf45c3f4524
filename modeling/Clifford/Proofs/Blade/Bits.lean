import Mathlib
import Clifford.Blade

/-! Blades bit by bit: grades as sums over bits, and the effect of removing the highest vector. -/

namespace Clifford.Blade

open Finset

/-- The blade of a basis vector is a power of two. -/
theorem vector_eq (index : Nat) : vector index = 2 ^ index := Nat.one_shiftLeft index

/-- The blade of a basis vector has the bit of that vector alone. -/
@[simp] theorem testBit_vector (index i : Nat) : (vector index).testBit i = decide (index = i) := by
  rw [vector_eq, Nat.testBit_two_pow]

/-- The vectors of a bounded blade lie below the bound. -/
theorem lt_of_testBit {n blade i : Nat} (bounded : blade < 2 ^ n) (set : blade.testBit i = true) :
    i < n := by
  -- A vector at or above the bound would make the blade at least as large.
  by_contra above
  have := Nat.testBit_lt_two_pow (bounded.trans_le (Nat.pow_le_pow_right (by omega) (not_lt.mp above)))
  simp [this] at set

/-- Any two blades are below a common power of two. -/
theorem lt_two_pow_add (a b : Nat) : a < 2 ^ (a + b) ∧ b < 2 ^ (a + b) :=
  ⟨Nat.lt_two_pow_self.trans_le (Nat.pow_le_pow_right (by decide) (by omega)),
    Nat.lt_two_pow_self.trans_le (Nat.pow_le_pow_right (by decide) (by omega))⟩

/-- The grade of a blade counts its bits below any bound on it. -/
theorem grade_eq_sum {n : Nat} : ∀ {blade : Nat}, blade < 2 ^ n →
    grade blade = ∑ i ∈ range n, (blade.testBit i).toNat := by
  -- One bit is split off at the low end, on both sides.
  induction n with
  | zero =>
    intro blade below
    have : blade = 0 := by simpa using below
    subst this
    simp [grade]
  | succ n ih =>
    intro blade below
    rw [grade]
    split
    · rename_i empty
      simp [empty]
    · have half : blade / 2 < 2 ^ n := by omega
      rw [sum_range_succ', ih half]
      have low : (blade.testBit 0).toNat = blade % 2 := by
        rcases Nat.mod_two_eq_zero_or_one blade with even | odd
        · simp [Nat.testBit_zero, even]
        · simp [Nat.testBit_zero, odd]
      simp only [Nat.testBit_succ, low]
      omega

/-- The vectors below an index are the bits below it. -/
theorem countBelow_eq_sum (blade index : Nat) :
    countBelow blade index = ∑ i ∈ range index, (blade.testBit i).toNat := by
  -- Cutting a blade off at the index keeps its bits below the index and clears the others.
  rw [countBelow, vector_eq, grade_eq_sum (Nat.mod_lt _ (Nat.two_pow_pos index))]
  refine sum_congr rfl fun i below => ?_
  rw [Nat.testBit_mod_two_pow]
  simp [mem_range.mp below]

/-- A blade with no bit below an index has no vectors there. -/
theorem countBelow_vector {index i : Nat} (below : i ≤ index) : countBelow (vector index) i = 0 := by
  rw [countBelow_eq_sum]
  -- The only bit of the vector lies at its own index, which the sum does not reach.
  refine sum_eq_zero fun j inside => ?_
  have : index ≠ j := by have := mem_range.mp inside; omega
  simp [this]

/-- An index above all bits counts every vector. -/
theorem countBelow_eq_grade {blade index : Nat} (below : blade < 2 ^ index) :
    countBelow blade index = grade blade := by
  rw [countBelow, vector_eq, Nat.mod_eq_of_lt below]

/-- What is left after the highest vector lies below it. -/
theorem dropTop_lt_top (blade : Nat) : dropTop blade < 2 ^ top blade := by
  -- The blade is less than twice its highest power of two.
  have upper : blade < 2 ^ (top blade + 1) := Nat.lt_log2_self
  rw [dropTop, vector_eq]
  rw [pow_succ] at upper
  omega

section Top

variable {blade : Nat} (nonzero : blade ≠ 0)

include nonzero

/-- The highest bit of a nonzero blade is set. -/
theorem testBit_top : blade.testBit (top blade) = true := Nat.testBit_log2 nonzero

/-- The highest vector of a bounded blade is below the bound. -/
theorem top_lt {n : Nat} (below : blade < 2 ^ n) : top blade < n :=
  (Nat.log2_lt nonzero).mpr below

/-- Taking the highest vector away clears its bit. -/
theorem dropTop_eq_xor : dropTop blade = blade ^^^ vector (top blade) := by
  -- The bit is set, so subtracting it and flipping it agree.
  have split : 2 ^ top blade ≤ blade := Nat.log2_self_le nonzero
  have upper : blade < 2 ^ (top blade + 1) := Nat.lt_log2_self
  have rest : blade - 2 ^ top blade < 2 ^ top blade := by
    rw [pow_succ] at upper
    omega
  rw [dropTop, vector_eq]
  apply Nat.eq_of_testBit_eq
  intro i
  have whole : blade = 2 ^ top blade + (blade - 2 ^ top blade) := by omega
  have same_low : i < top blade → blade.testBit i = (blade - 2 ^ top blade).testBit i := by
    intro low
    conv_lhs => rw [whole]
    exact Nat.testBit_two_pow_add_gt low _
  rw [Nat.testBit_xor, Nat.testBit_two_pow]
  rcases Nat.lt_trichotomy i (top blade) with low | same | high
  · -- Below the highest bit both sides read the rest of the blade.
    have : top blade ≠ i := by omega
    simp [same_low low, this]
  · -- At the highest bit both sides are clear: the rest ends below it, and the flip undoes the bit.
    subst same
    rw [Nat.testBit_lt_two_pow rest, testBit_top nonzero]
    simp
  · -- Above the highest bit there is nothing on either side.
    have small : blade < 2 ^ i := upper.trans_le (Nat.pow_le_pow_right (by omega) high)
    rw [Nat.testBit_lt_two_pow small, Nat.testBit_lt_two_pow (by omega)]
    have : top blade ≠ i := by omega
    simp [this]

/-- A nonzero blade is its highest vector and what is left without it. -/
theorem dropTop_xor_top : dropTop blade ^^^ vector (top blade) = blade := by
  rw [dropTop_eq_xor nonzero, Nat.xor_assoc, Nat.xor_self, Nat.xor_zero]

/-- Moving the highest vector from one blade to another keeps their symmetric difference. -/
theorem dropTop_xor (other : Nat) :
    dropTop blade ^^^ (other ^^^ vector (top blade)) = blade ^^^ other := by
  -- The highest vector is flipped twice, once in each blade.
  rw [dropTop_eq_xor nonzero]
  apply Nat.eq_of_testBit_eq
  intro i
  simp only [Nat.testBit_xor]
  cases blade.testBit i <;> cases other.testBit i <;> cases (vector (top blade)).testBit i <;> rfl

end Top

end Clifford.Blade
