import Clifford.Proofs.Metric.Walk

/-! Grades and signs: how grades add up in a symmetric difference, and the signs of reversions and
complements as parities of crossings. -/

namespace Clifford.Blade

open Finset

/-- The vectors of two blades are those of their symmetric difference and twice the common ones. -/
theorem grade_xor_add (a b : Nat) :
    grade (a ^^^ b) + 2 * grade (a &&& b) = grade a + grade b := by
  -- Both blades are below a common power of two.
  obtain ⟨left, right⟩ := lt_two_pow_add a b
  have whole := grade_xor left right
  have first := grade_eq_add left b
  have second := grade_eq_add right a
  rw [Nat.and_comm] at second
  omega

/-- Only the scalar blade has no vectors. -/
theorem grade_eq_zero {a : Nat} : grade a = 0 ↔ a = 0 := by
  constructor
  · intro none
    -- A vector of the blade would be one of its bits.
    have bounded : a < 2 ^ a := Nat.lt_two_pow_self
    rw [grade_eq_sum bounded, sum_eq_zero_iff] at none
    refine Nat.eq_of_testBit_eq fun i => ?_
    by_cases inside : i < a
    · simpa using none i (mem_range.mpr inside)
    · rw [Nat.zero_testBit, Nat.testBit_lt_two_pow
        (bounded.trans_le (Nat.pow_le_pow_right (by decide) (not_lt.mp inside)))]
  · rintro rfl
    simp [grade]

/-- A single vector has grade one. -/
theorem grade_vector (index : Nat) : grade (vector index) = 1 := by
  -- A single bit is set below the next power of two.
  have bounded : vector index < 2 ^ (index + 1) := by
    rw [vector_eq]
    exact Nat.pow_lt_pow_right (by decide) (by omega)
  rw [grade_eq_sum bounded, sum_eq_single_of_mem index (mem_range.mpr (by omega))]
  · simp
  · intro i _ other
    simp [other.symm]

/-- A blade shares a vector that it holds, and no other one. -/
theorem and_vector (a index : Nat) :
    a &&& vector index = if a.testBit index then vector index else 0 := by
  refine Nat.eq_of_testBit_eq fun i => ?_
  rw [Nat.testBit_and, testBit_vector]
  by_cases same : index = i
  · subst same
    cases set : a.testBit index <;> simp
  · split <;> simp [same]

/-- A blade of grade one is the vector that it holds. -/
theorem eq_vector {a index : Nat} (single : grade a = 1) (held : a.testBit index = true) :
    a = vector index := by
  -- The symmetric difference with that vector has grade zero.
  have total := grade_xor_add a (vector index)
  rw [and_vector, held, if_pos rfl, grade_vector, single] at total
  exact Nat.xor_eq_zero_iff.mp (grade_eq_zero.mp (by omega))

/-- A blade of grade one lies within another blade or apart from it. -/
theorem within_or_apart {a : Nat} (single : grade a = 1) (b : Nat) : a &&& b = a ∨ a &&& b = 0 := by
  -- A part of a blade of grade one has grade one or zero.
  have bounded : a < 2 ^ a := Nat.lt_two_pow_self
  have total := grade_eq_add bounded b
  have within := missing_eq_zero bounded b
  have apart := grade_eq_zero (a := a &&& b)
  omega

/-- Exchanging a vector that a blade holds for one that it lacks keeps the grade. -/
theorem grade_exchange {a i j : Nat} (held : a.testBit i = true) (lacked : a.testBit j = false) :
    grade (a ^^^ vector i ^^^ vector j) = grade a := by
  have other : i ≠ j := by
    rintro rfl
    exact Bool.false_ne_true (lacked.symm.trans held)
  -- The two exchanges change the grade by one each, in opposite directions.
  have without := grade_xor_add a (vector i)
  have within := grade_xor_add (a ^^^ vector i) (vector j)
  rw [and_vector, grade_vector, held, if_pos rfl, grade_vector] at without
  -- The vector that comes in was not there, and is not the one that goes out.
  have absent : (a ^^^ vector i).testBit j = false := by simp [lacked, other]
  rw [and_vector, grade_vector, absent, if_neg Bool.false_ne_true, grade_eq_zero.mpr rfl] at within
  omega

/-- The parity of the grade of a symmetric difference is the sum of the parities. -/
theorem grade_xor_cast (a b : Nat) :
    (grade (a ^^^ b) : ZMod 2) = (grade a : ZMod 2) + (grade b : ZMod 2) := by
  -- Common vectors are counted twice, which modulo two is nothing.
  have total := congrArg (Nat.cast : Nat → ZMod 2) (grade_xor_add a b)
  push_cast at total
  rwa [show (2 : ZMod 2) = 0 from rfl, zero_mul, add_zero] at total

/-- The parity of the grade is the parity below any bound on the blade. -/
theorem below_eq_grade {n a : Nat} (bounded : a < 2 ^ n) : below a n = grade a := by
  rw [← countBelow_cast, countBelow_eq_grade bounded]

/-- The crossings of a blade with itself are the pairs of its vectors. -/
theorem crossings_self {n a : Nat} (bounded : a < 2 ^ n) :
    crossings n a a = (grade a * (grade a - 1) / 2 : Nat) := by
  -- The highest vector lies above all others, which are left for the induction.
  induction a using Nat.strong_induction_on with
  | _ a ih =>
    by_cases nonzero : a = 0
    · subst nonzero
      simp [grade]
    · have low := dropTop_lt_top a
      have inside := top_lt nonzero bounded
      have rest := ih (dropTop a) (dropTop_lt nonzero) ((dropTop_lt nonzero).trans bounded)
      have split := dropTop_xor_top nonzero
      have alone : crossings n (vector (top a)) (vector (top a)) = 0 := by
        rw [crossings_vector inside, ← countBelow_cast, countBelow_vector le_rfl, Nat.cast_zero]
      -- The highest vector crosses all others once.
      have own : crossings n (vector (top a)) (dropTop a) = grade (dropTop a) := by
        rw [crossings_vector inside, below_eq_grade low]
      have step : grade a = grade (dropTop a) + 1 := by
        have total := grade_xor_add (dropTop a) (vector (top a))
        rw [and_vector, Nat.testBit_lt_two_pow low, split, grade_vector] at total
        simpa [grade_eq_zero.mpr] using total
      conv_lhs => rw [← split]
      rw [crossings_xor_left, crossings_xor_right, crossings_xor_right, rest, crossings_dropTop,
        alone, own, add_zero, add_zero, step, Nat.triangle_succ, Nat.cast_add]

/-- A number of swaps has the sign one or minus one. -/
theorem swapSign_cases (swaps : Nat) : swapSign swaps = 1 ∨ swapSign swaps = -1 := by
  rw [swapSign]
  split <;> simp

/-- The sign of a reversion is the parity of the crossings of a blade with itself. -/
theorem reversionSign_eq {n a : Nat} (bounded : a < 2 ^ n) :
    reversionSign a = paritySign (crossings n a a) := by
  rw [reversionSign, swapSign_eq, crossings_self bounded]

/-- Reversing a product exchanges its factors. -/
theorem reversionSign_xor {n a b : Nat} (left : a < 2 ^ n) (right : b < 2 ^ n) :
    reversionSign (a ^^^ b) * paritySign (crossings n a b) =
      reversionSign a * reversionSign b * paritySign (crossings n b a) := by
  -- Crossings are additive on either side, and those of the left factor are met twice.
  rw [reversionSign_eq (Nat.xor_lt_two_pow left right), reversionSign_eq left,
    reversionSign_eq right, ← paritySign_add, ← paritySign_add, ← paritySign_add]
  congr 1
  rw [crossings_xor_left, crossings_xor_right, crossings_xor_right]
  have twice := CharTwo.add_self_eq_zero (crossings n a b)
  linear_combination twice

end Clifford.Blade
