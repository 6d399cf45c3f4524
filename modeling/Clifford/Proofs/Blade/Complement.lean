import Clifford.Proofs.Blade.Grade

/-! Complements of blades: the sign of a complement counts crossings, and taking the complement twice
leaves a sign that is multiplicative in the blade. -/

namespace Clifford.Blade

open Finset

/-- The blade of the vectors below a dimension that a blade lacks. -/
def lacking (n a : Nat) : Nat := (vector n - 1) ^^^ a

/-- Below the dimension a vector is lacking exactly if the blade does not hold it. -/
theorem testBit_lacking (n a i : Nat) :
    (lacking n a).testBit i = (decide (i < n) ^^ a.testBit i) := by
  rw [lacking, vector_eq, Nat.testBit_xor, Nat.testBit_two_pow_sub_one]

/-- What is lacking in what is lacking is the blade. -/
@[simp] theorem lacking_lacking (n a : Nat) : lacking n (lacking n a) = a := by
  rw [lacking, lacking, ← Nat.xor_assoc, Nat.xor_self, Nat.zero_xor]

variable {n a b : Nat}

/-- A blade of the space lacks vectors of the space. -/
theorem lacking_lt (bounded : a < 2 ^ n) : lacking n a < 2 ^ n := by
  rw [lacking, vector_eq]
  -- All vectors of the space form the largest mask below its size.
  exact Nat.xor_lt_two_pow (by have := Nat.two_pow_pos n; omega) bounded

/-- Complements of the blades of a space lie in the space. -/
theorem complement_lt (bounded : a < 2 ^ n) : (complement a n).1 < 2 ^ n := lacking_lt bounded

/-- The sign of a complement is one or minus one. -/
theorem complement_sign (a n : Nat) : (complement a n).2 = 1 ∨ (complement a n).2 = -1 :=
  swapSign_cases _

/-- A blade has no vector in common with what it lacks. -/
theorem and_lacking (bounded : a < 2 ^ n) : a &&& lacking n a = 0 := by
  refine Nat.eq_of_testBit_eq fun i => ?_
  -- What is held is within the space, so that it is not lacking.
  rw [Nat.testBit_and, testBit_lacking, Nat.zero_testBit]
  cases set : a.testBit i with
  | false => rfl
  | true => simp [lt_of_testBit bounded set]

/-- A blade and what it lacks make up the blade of all vectors. -/
theorem xor_lacking (n a : Nat) : a ^^^ lacking n a = vector n - 1 := by
  rw [lacking, Nat.xor_comm, Nat.xor_assoc, Nat.xor_self, Nat.xor_zero]

/-- The blade of all vectors has the grade of the dimension. -/
theorem grade_all (n : Nat) : grade (vector n - 1) = n := by
  have bounded : vector n - 1 < 2 ^ n := by
    rw [vector_eq]
    have := Nat.two_pow_pos n
    omega
  rw [grade_eq_sum bounded]
  -- Every vector below the dimension is counted once.
  have every : ∀ i ∈ range n, ((vector n - 1).testBit i).toNat = 1 := fun i inside => by
    rw [vector_eq, Nat.testBit_two_pow_sub_one, decide_eq_true (mem_range.mp inside), Bool.toNat_true]
  rw [sum_congr rfl every, sum_const, card_range, smul_eq_mul, mul_one]

/-- The grades of a blade and of what it lacks add up to the dimension. -/
theorem grade_add_lacking (bounded : a < 2 ^ n) : grade a + grade (lacking n a) = n := by
  -- The two blades have nothing in common and everything together.
  have total := grade_xor_add a (lacking n a)
  rw [xor_lacking, grade_all, and_lacking bounded, grade_eq_zero.mpr rfl] at total
  omega

/-- The grade of a blade of the space is at most the dimension. -/
theorem grade_le (bounded : a < 2 ^ n) : grade a ≤ n := by
  have grades := grade_add_lacking bounded
  omega

/-- Below an index there are the lowest vector and those of the half. -/
theorem below_half (b i : Nat) :
    below b (i + 1) = below (b / 2) i + if b.testBit 0 then 1 else 0 := by
  simp only [below, sum_range_succ', Nat.testBit_succ]

/-- Crossings are counted bit by bit: the lowest vector of the right blade lies below all higher
ones of the left blade. -/
theorem crossings_succ (bounded : a < 2 ^ (n + 1)) (b : Nat) :
    crossings (n + 1) a b =
      crossings n (a / 2) (b / 2) + if b.testBit 0 then (grade (a / 2) : ZMod 2) else 0 := by
  have half : a / 2 < 2 ^ n := by
    rw [pow_succ] at bounded
    omega
  calc crossings (n + 1) a b
      = ∑ i ∈ range n, if (a / 2).testBit i then below b (i + 1) else 0 := by
        rw [crossings, sum_range_succ', below, range_zero, sum_empty, ite_self, add_zero]
        simp only [Nat.testBit_succ]
    _ = ∑ i ∈ range n, ((if (a / 2).testBit i then below (b / 2) i else 0) +
          if b.testBit 0 then (if (a / 2).testBit i then 1 else 0) else 0) :=
        sum_congr rfl fun i _ => by
          rw [below_half]
          split <;> simp
    _ = crossings n (a / 2) (b / 2) + if b.testBit 0 then (grade (a / 2) : ZMod 2) else 0 := by
        rw [sum_add_distrib, ← below_eq_grade half, crossings, below]
        split <;> simp

/-- The swaps of a complement are the crossings of the blade over what it lacks. -/
theorem complementSwaps_cast (bounded : a < 2 ^ n) :
    (complementSwaps a (grade a) : ZMod 2) = crossings n a (lacking n a) := by
  -- One bit is split off at the low end, as the definition does.
  induction n generalizing a with
  | zero =>
    obtain rfl : a = 0 := by simpa using bounded
    simp [complementSwaps]
  | succ n ih =>
    by_cases nonzero : a = 0
    · subst nonzero
      simp [complementSwaps]
    · have half : a / 2 < 2 ^ n := by
        rw [pow_succ] at bounded
        omega
      -- Halving a blade and its complement keeps them complementary, one dimension lower.
      have others : lacking (n + 1) a / 2 = lacking n (a / 2) := by
        refine Nat.eq_of_testBit_eq fun i => ?_
        rw [← Nat.testBit_succ, testBit_lacking, testBit_lacking, Nat.testBit_succ]
        simp
      have lowest : (lacking (n + 1) a).testBit 0 = !a.testBit 0 := by
        rw [testBit_lacking]
        simp
      have split : grade a = a % 2 + grade (a / 2) := by
        conv_lhs => rw [grade, if_neg nonzero]
      rw [crossings_succ bounded, others, lowest, ← ih half, complementSwaps, if_neg nonzero,
        Nat.testBit_zero, split]
      -- A vector that is held passes on, and one that is lacking is crossed by all that are above it.
      rcases Nat.mod_two_eq_zero_or_one a with even | odd
      · simp [even, add_comm]
      · simp [odd]

/-- The complement of a blade of the space is what it lacks, with the parity of its crossings. -/
theorem complement_eq (bounded : a < 2 ^ n) :
    complement a n = (lacking n a, paritySign (crossings n a (lacking n a))) := by
  rw [complement, swapSign_eq, complementSwaps_cast bounded, lacking]

/-- The pairs of two groups are those within each of them and those across. -/
theorem triangle_add (g h : Nat) :
    (g + h) * (g + h - 1) / 2 = g * (g - 1) / 2 + h * (h - 1) / 2 + g * h := by
  induction h with
  | zero => simp
  | succ h ih =>
    rw [← add_assoc, Nat.triangle_succ, Nat.triangle_succ, ih]
    ring

/-- Every vector of a blade crosses every one of a disjoint blade, from one side or the other. -/
theorem crossings_disjoint (left : a < 2 ^ n) (right : b < 2 ^ n) (disjoint : a &&& b = 0) :
    crossings n a b + crossings n b a = (grade a * grade b : Nat) := by
  -- The crossings of the union with itself contain those of either blade with itself.
  have total := crossings_self (Nat.xor_lt_two_pow left right)
  have grades := grade_xor_add a b
  rw [disjoint, grade_eq_zero.mpr rfl, mul_zero, add_zero] at grades
  rw [crossings_xor_left, crossings_xor_right, crossings_xor_right, grades, triangle_add,
    Nat.cast_add, Nat.cast_add, crossings_self left, crossings_self right] at total
  linear_combination total

/-- The sign that taking the complement twice leaves. -/
def doubleDualSign (n a : Nat) : Int := swapSign (grade a * (n - grade a))

/-- The signs of both complements multiply to that of taking the complement twice. -/
theorem complement_signs (bounded : a < 2 ^ n) :
    paritySign (crossings n a (lacking n a)) * paritySign (crossings n (lacking n a) a) =
      doubleDualSign n a := by
  -- The grade of what is lacking is what the dimension leaves.
  have grades := grade_add_lacking bounded
  rw [← paritySign_add, crossings_disjoint bounded (lacking_lt bounded) (and_lacking bounded),
    doubleDualSign, swapSign_eq, show n - grade a = grade (lacking n a) by omega]

/-- The sign of taking the complement twice depends on the parities of the grade and the dimension. -/
theorem doubleDualSign_eq (bounded : a < 2 ^ n) :
    doubleDualSign n a = paritySign ((n + 1) * grade a) := by
  -- A square is its base modulo two, so the product depends on parities alone.
  have grades := grade_add_lacking bounded
  have idempotent : ∀ x : ZMod 2, x * x = x := by decide
  rw [doubleDualSign, swapSign_eq]
  congr 1
  rw [Nat.cast_mul, Nat.cast_sub (by omega), mul_sub, idempotent, CharTwo.sub_eq_add]
  ring

/-- Taking the complement twice changes the sign of odd blades in even dimensions alone. -/
theorem doubleDualSign_ite (bounded : a < 2 ^ n) :
    doubleDualSign n a = if n % 2 = 1 ∨ grade a % 2 = 0 then 1 else -1 := by
  have grades := grade_add_lacking bounded
  have swaps : grade a * (n - grade a) % 2 = 1 ↔ grade a % 2 = 1 ∧ (n - grade a) % 2 = 1 := by
    -- A product is odd exactly if both factors are.
    rw [← Nat.odd_iff, ← Nat.odd_iff, ← Nat.odd_iff, Nat.odd_mul]
  rw [doubleDualSign, swapSign]
  split <;> split <;> omega

/-- The sign of taking the complement twice is multiplicative. -/
theorem doubleDualSign_xor (left : a < 2 ^ n) (right : b < 2 ^ n) :
    doubleDualSign n (a ^^^ b) = doubleDualSign n a * doubleDualSign n b := by
  rw [doubleDualSign_eq (Nat.xor_lt_two_pow left right), doubleDualSign_eq left,
    doubleDualSign_eq right, ← paritySign_add, grade_xor_cast, mul_add]

end Clifford.Blade
