import Clifford.Metric.BladeProduct
import Clifford.Proofs.Blade.Twist

/-! The products of blades in closed form: the walks leave the symmetric difference of the two
blades with the factor of their crossings and shared squares. -/

namespace Clifford

namespace Blade

open Finset

/-- Signs of numbers of swaps multiply. -/
theorem swapSign_add (m n : Nat) : swapSign (m + n) = swapSign m * swapSign n := by
  simp only [swapSign_eq, Nat.cast_add, paritySign_add]

/-- A sign of swaps is never zero. -/
theorem swapSign_ne_zero (swaps : Nat) : swapSign swaps ≠ 0 := by
  rw [swapSign_eq]
  exact paritySign_ne_zero _

/-- A blade lies within another one when all of its vectors do. -/
theorem and_eq_left_iff (a b : Nat) : a &&& b = a ↔ ∀ i, a.testBit i → b.testBit i := by
  -- A blade lies within another one if no bit is lost in what they share.
  constructor
  · intro inside i set
    have := congrArg (·.testBit i) inside
    simpa [set] using this
  · intro inside
    apply Nat.eq_of_testBit_eq
    intro i
    have := inside i
    rw [Nat.testBit_and]
    cases set : a.testBit i <;> simp_all

/-- The number of vectors of a blade that another one lacks. -/
def missing (n a b : Nat) : Nat := ∑ i ∈ range n, (a.testBit i && !b.testBit i).toNat

/-- The vectors of a blade are shared with another one or missing there. -/
theorem grade_eq_add {n a : Nat} (bounded : a < 2 ^ n) (b : Nat) :
    grade a = grade (a &&& b) + missing n a b := by
  have shared : a &&& b < 2 ^ n := Nat.and_le_left.trans_lt bounded
  rw [grade_eq_sum bounded, grade_eq_sum shared, missing, ← sum_add_distrib]
  -- Each vector of the blade is counted on exactly one side.
  refine sum_congr rfl fun i _ => ?_
  rw [Nat.testBit_and]
  cases a.testBit i <;> cases b.testBit i <;> rfl

/-- The symmetric difference holds what either blade has and the other lacks. -/
theorem grade_xor {n a b : Nat} (left : a < 2 ^ n) (right : b < 2 ^ n) :
    grade (a ^^^ b) = missing n a b + missing n b a := by
  rw [grade_eq_sum (Nat.xor_lt_two_pow left right), missing, missing, ← sum_add_distrib]
  refine sum_congr rfl fun i _ => ?_
  -- A vector lies in the symmetric difference if exactly one of the blades has it.
  rw [Nat.testBit_xor]
  cases a.testBit i <;> cases b.testBit i <;> rfl

/-- Nothing is missing exactly when a blade lies within the other one. -/
theorem missing_eq_zero {n a : Nat} (bounded : a < 2 ^ n) (b : Nat) :
    missing n a b = 0 ↔ a &&& b = a := by
  rw [and_eq_left_iff, missing, sum_eq_zero_iff]
  -- A sum of numbers vanishes if each of them does.
  constructor
  · intro none i set
    have := none i (mem_range.mpr (lt_of_testBit bounded set))
    simpa [set] using this
  · intro inside i _
    have := inside i
    cases set : a.testBit i <;> simp_all

end Blade

namespace Metric

/-- The squares of the basis vectors of a signature. -/
def squares (s : Signature) (index : Nat) : Int := diagonalSquare s index

/-- Basis vectors of an orthogonal basis square to one, to minus one, or to zero. -/
theorem squares_cases (s : Signature) (index : Nat) :
    squares s index = 1 ∨ squares s index = -1 ∨ squares s index = 0 := by
  -- The three ranges of indices have one square each.
  unfold squares diagonalSquare
  split
  · exact .inl rfl
  · split
    · exact .inr (.inl rfl)
    · exact .inr (.inr rfl)

/-- Over an orthogonal basis a vector meets itself only. -/
theorem partner?_diagonal (s : Signature) (index blade : Nat) :
    (diagonal s).partner? index blade =
      if blade.testBit index then some (index, squares s index) else none := rfl

end Metric

namespace BladeProduct

open Blade Clifford.Metric

/-- A blade with a factor, where a factor of zero leaves no blade. -/
def weighted (blade : Nat) (factor : Int) : Nat × Int := (if factor = 0 then 0 else blade, factor)

/-- One more swap for a negative square multiplies by the square. -/
theorem swapSign_square {s : Signature} {index : Nat} (nonzero : squares s index ≠ 0) :
    swapSign (if squares s index < 0 then 1 else 0) = squares s index := by
  -- The sign of one swap is what a negative square contributes.
  rcases squares_cases s index with one | minus | zero
  · simp [one, swapSign]
  · simp [minus, swapSign]
  · exact absurd zero nonzero

/-- A vector that a blade lacks is added by setting or by flipping its bit. -/
theorem or_vector {blade index : Nat} (absent : blade.testBit index = false) :
    blade ||| vector index = blade ^^^ vector index := by
  apply Nat.eq_of_testBit_eq
  intro i
  -- Only the bit of the vector itself is changed, and it was clear.
  rw [Nat.testBit_or, Nat.testBit_xor, testBit_vector]
  by_cases same : index = i
  · subst same
    simp [absent]
  · simp [same]

section Walk

variable (s : Signature)

/-- The walk of the geometric product, for blades of any width. -/
theorem signed_geometricWalk {n : Nat} (left : Nat) : ∀ (right swaps : Nat), left < 2 ^ n →
    signed (geometricWalk (.diagonal s) left right swaps) =
      weighted (left ^^^ right) (swapSign swaps * twist (squares s) n left right) := by
  -- The left blade loses its highest vector at each step.
  induction left using Nat.strong_induction_on with
  | _ left ih =>
    intro right swaps bounded
    rw [geometricWalk]
    by_cases nonzero : left = 0
    · subst nonzero
      simp [signed, weighted, swapSign_ne_zero]
    · have rest := ih (dropTop left) (dropTop_lt nonzero)
      have small : dropTop left < 2 ^ n := (dropTop_lt nonzero).trans bounded
      have step := twist_top (squares s) nonzero bounded right
      rw [dif_neg nonzero]
      dsimp only
      rw [partner?_diagonal]
      cases shared : right.testBit (top left) with
      | false =>
        -- The vector takes its place and crosses all vectors that lie below it.
        rw [shared] at step
        simp only [Bool.false_eq_true, if_false] at step ⊢
        rw [rest _ _ small, or_vector shared, dropTop_xor nonzero, step, swapSign_add,
          swapSign_eq (countBelow right (top left)), countBelow_cast]
        congr 1
        ring
      | true =>
        -- The vector contracts with itself in the right blade.
        rw [shared] at step
        simp only [if_true] at step ⊢
        -- A null vector ends the walk, and its square makes the factor zero.
        by_cases null : squares s (top left) = 0
        · rw [if_pos null, step, null]
          simp [signed, weighted]
        · rw [if_neg null, rest _ _ small, dropTop_xor nonzero, step, swapSign_add, swapSign_add,
            swapSign_eq (countBelow right (top left)), countBelow_cast]
          rw [swapSign_square null]
          congr 1
          ring

/-- The walk of the exterior product, which only disjoint blades take, of any width and over any metric. -/
theorem signed_exteriorWalk (square : Nat → Int) {n : Nat} (left : Nat) :
    ∀ (right swaps : Nat), left < 2 ^ n → left &&& right = 0 →
    signed (some (exteriorWalk left right swaps)) =
      weighted (left ^^^ right) (swapSign swaps * twist square n left right) := by
  -- The left blade loses its highest vector to the right one at each step.
  induction left using Nat.strong_induction_on with
  | _ left ih =>
    intro right swaps bounded disjoint
    rw [exteriorWalk]
    by_cases nonzero : left = 0
    · subst nonzero
      simp [signed, weighted, swapSign_ne_zero]
    · have rest := ih (dropTop left) (dropTop_lt nonzero)
      have small : dropTop left < 2 ^ n := (dropTop_lt nonzero).trans bounded
      have bits : ∀ i, left.testBit i = true → right.testBit i = false := by
        intro i set
        have := congrArg (·.testBit i) disjoint
        simpa [set] using this
      have absent := bits _ (testBit_top nonzero)
      -- The vector that has taken its place lies above all that are still to come.
      have apart : dropTop left &&& (right ||| vector (top left)) = 0 := by
        apply Nat.eq_of_testBit_eq
        intro i
        have := bits i
        rw [dropTop_eq_xor nonzero]
        by_cases same : top left = i
        · simp [← same, testBit_top nonzero]
        · cases set : left.testBit i <;> simp_all
      rw [dif_neg nonzero, rest _ _ small apart, or_vector absent, dropTop_xor nonzero,
        twist_top square nonzero bounded right, absent, swapSign_add,
        swapSign_eq (countBelow right (top left)), countBelow_cast]
      congr 1
      simp only [Bool.false_eq_true, if_false]
      ring

/-- The walk of the contraction, which needs every left vector in the right blade. -/
theorem signed_contractWalk (left : Nat) : ∀ (right swaps : Nat), left < 2 ^ s.n →
    signed (contractWalk (.diagonal s) left right swaps) =
      weighted (left ^^^ right) (swapSign swaps *
        if left &&& right = left then twist (squares s) s.n left right else 0) := by
  -- The left blade loses its highest vector at each step, and the right blade loses it as well.
  induction left using Nat.strong_induction_on with
  | _ left ih =>
    intro right swaps bounded
    rw [contractWalk]
    by_cases nonzero : left = 0
    · subst nonzero
      simp [signed, weighted, swapSign_ne_zero]
    · have rest := ih (dropTop left) (dropTop_lt nonzero)
      have small : dropTop left < 2 ^ s.n := (dropTop_lt nonzero).trans bounded
      have step := twist_top (squares s) nonzero bounded right
      rw [dif_neg nonzero]
      dsimp only
      rw [partner?_diagonal]
      cases shared : right.testBit (top left) with
      | false =>
        -- A vector that the right blade lacks ends the walk, and keeps the left blade from lying
        -- within.
        have outside : ¬ left &&& right = left := by
          rw [and_eq_left_iff]
          intro inside
          simp [inside _ (testBit_top nonzero)] at shared
        simp [outside, signed, weighted]
      | true =>
        rw [shared] at step
        simp only [if_true] at step ⊢
        by_cases null : squares s (top left) = 0
        · rw [if_pos null, step, null]
          simp [signed, weighted]
        · -- Without the vector on both sides, the rest lies within exactly if the whole did.
          have within : dropTop left &&& (right ^^^ vector (top left)) = dropTop left ↔
              left &&& right = left := by
            rw [and_eq_left_iff, and_eq_left_iff, dropTop_eq_xor nonzero]
            refine forall_congr' fun i => ?_
            by_cases same : top left = i
            · simp [← same, testBit_top nonzero, shared]
            · simp [same]
          rw [if_neg null, rest _ _ small, dropTop_xor nonzero, step, swapSign_add, swapSign_add,
            swapSign_eq (countBelow right (top left)), countBelow_cast]
          rw [swapSign_square null]
          simp only [within]
          congr 1
          split <;> ring

end Walk

end BladeProduct

end Clifford
