import Clifford.Proofs.Blade.Bits

/-! The sign of a product of blades: the parity of the crossings times the squares of the common
vectors, which together satisfy the cocycle law behind associativity. -/

namespace Clifford.Blade

open Finset

/-- The sign of a parity. -/
def paritySign (parity : ZMod 2) : Int := if parity = 0 then 1 else -1

/-- Parities add as their signs multiply. -/
theorem paritySign_add : ∀ x y : ZMod 2, paritySign (x + y) = paritySign x * paritySign y := by
  decide

/-- The sign of no crossing. -/
@[simp] theorem paritySign_zero : paritySign 0 = 1 := rfl

/-- The sign of one crossing. -/
@[simp] theorem paritySign_one : paritySign 1 = -1 := rfl

/-- A sign is never zero. -/
theorem paritySign_ne_zero : ∀ x : ZMod 2, paritySign x ≠ 0 := by decide

/-- The sign of a number of swaps depends on its parity. -/
theorem swapSign_eq (swaps : Nat) : swapSign swaps = paritySign swaps := by
  rw [swapSign, paritySign]
  -- Only whether the number of swaps is even matters on either side.
  have parity : ((swaps : ZMod 2) = 0) ↔ swaps % 2 = 0 := by
    rw [ZMod.natCast_eq_zero_iff]
    omega
  split
  · rw [if_neg (by rw [parity]; omega)]
  · rw [if_pos (by rw [parity]; omega)]

/-- The number of vectors of a blade below an index, as a parity. -/
def below (blade index : Nat) : ZMod 2 := ∑ i ∈ range index, if blade.testBit i then 1 else 0

/-- The parity of the vectors below an index. -/
theorem countBelow_cast (blade index : Nat) :
    (countBelow blade index : ZMod 2) = below blade index := by
  rw [countBelow_eq_sum, below, Nat.cast_sum]
  refine sum_congr rfl fun i _ => ?_
  cases blade.testBit i <;> rfl

/-- Parities of a symmetric difference add. -/
theorem below_xor (a b index : Nat) : below (a ^^^ b) index = below a index + below b index := by
  -- A vector that both blades hold counts twice on the right, which is even.
  rw [below, below, below, ← sum_add_distrib]
  refine sum_congr rfl fun i _ => ?_
  rw [Nat.testBit_xor]
  cases a.testBit i <;> cases b.testBit i <;> decide

/-- The parity of the pairs of a vector of the first blade and a lower one of the second. -/
def crossings (n a b : Nat) : ZMod 2 := ∑ i ∈ range n, if a.testBit i then below b i else 0

/-- Crossings add in the first blade. -/
theorem crossings_xor_left (n a a' b : Nat) :
    crossings n (a ^^^ a') b = crossings n a b + crossings n a' b := by
  -- The sum is additive vector by vector of the left blade.
  rw [crossings, crossings, crossings, ← sum_add_distrib]
  refine sum_congr rfl fun i _ => ?_
  rw [Nat.testBit_xor]
  cases a.testBit i <;> cases a'.testBit i <;> simp [CharTwo.add_self_eq_zero]

/-- Crossings add in the second blade. -/
theorem crossings_xor_right (n a b b' : Nat) :
    crossings n a (b ^^^ b') = crossings n a b + crossings n a b' := by
  rw [crossings, crossings, crossings, ← sum_add_distrib]
  refine sum_congr rfl fun i _ => ?_
  rw [below_xor]
  split <;> simp

/-- A single vector crosses the vectors below it. -/
theorem crossings_vector {n index : Nat} (inside : index < n) (b : Nat) :
    crossings n (vector index) b = below b index := by
  -- The left blade has one vector, so one summand is left.
  rw [crossings, sum_eq_single_of_mem index (mem_range.mpr inside)]
  · simp
  · intro i _ other
    simp [other.symm]

/-- Nothing crosses a vector that lies above it. -/
theorem crossings_eq_zero {n a index b : Nat} (low : a < 2 ^ index)
    (high : ∀ i < index, b.testBit i = false) : crossings n a b = 0 := by
  -- Every vector of the left blade is below the index, and the right blade has nothing there.
  refine sum_eq_zero fun i _ => ?_
  split
  · rename_i set
    have : i < index := lt_of_testBit low set
    refine sum_eq_zero fun j inside => ?_
    rw [high j (by have := mem_range.mp inside; omega)]
    rfl
  · rfl

/-- The rest of a blade does not cross its highest vector. -/
theorem crossings_dropTop (n a : Nat) : crossings n (dropTop a) (vector (top a)) = 0 := by
  -- The rest of the blade lies below its highest vector.
  refine crossings_eq_zero (dropTop_lt_top a) fun i lower => ?_
  have : top a ≠ i := by omega
  simp [this]

@[simp] theorem crossings_zero_left (n b : Nat) : crossings n 0 b = 0 := by simp [crossings]

@[simp] theorem crossings_zero_right (n a : Nat) : crossings n a 0 = 0 := by simp [crossings, below]

/-- The product of the squares of the vectors that two blades share. -/
def sharedSquares (square : Nat → Int) (n a b : Nat) : Int :=
  ∏ i ∈ range n, if a.testBit i && b.testBit i then square i else 1

@[simp] theorem sharedSquares_zero_left (square : Nat → Int) (n b : Nat) :
    sharedSquares square n 0 b = 1 := by simp [sharedSquares]

@[simp] theorem sharedSquares_zero_right (square : Nat → Int) (n a : Nat) :
    sharedSquares square n a 0 = 1 := by simp [sharedSquares]

/-- A single vector shares its square with the blades that hold it. -/
theorem sharedSquares_vector (square : Nat → Int) {n index : Nat} (inside : index < n) (b : Nat) :
    sharedSquares square n (vector index) b = if b.testBit index then square index else 1 := by
  -- A vector that the left blade lacks contributes the factor one.
  rw [sharedSquares, prod_eq_single_of_mem index (mem_range.mpr inside)]
  · simp
  · intro i _ other
    simp [other.symm]

/-- Shared vectors are the same on either side of an association. -/
theorem sharedSquares_cocycle (square : Nat → Int) (n a b c : Nat) :
    sharedSquares square n a b * sharedSquares square n (a ^^^ b) c =
      sharedSquares square n b c * sharedSquares square n a (b ^^^ c) := by
  simp only [sharedSquares, ← prod_mul_distrib]
  refine prod_congr rfl fun i _ => ?_
  -- Whatever blades hold the vector, both sides meet its square equally often.
  simp only [Nat.testBit_xor]
  cases a.testBit i <;> cases b.testBit i <;> cases c.testBit i <;> simp

/-- The factor of the product of two blades over an orthogonal basis with the given squares. -/
def twist (square : Nat → Int) (n a b : Nat) : Int :=
  paritySign (crossings n a b) * sharedSquares square n a b

/-- The cocycle law: the factors of a product of three blades do not depend on the association. -/
theorem twist_cocycle (square : Nat → Int) (n a b c : Nat) :
    twist square n a b * twist square n (a ^^^ b) c =
      twist square n b c * twist square n a (b ^^^ c) := by
  -- Crossings are additive in both blades, so the parities agree by themselves.
  have squares := sharedSquares_cocycle square n a b c
  simp only [twist, crossings_xor_left, crossings_xor_right, paritySign_add]
  linear_combination paritySign (crossings n a b) * paritySign (crossings n a c) *
    paritySign (crossings n b c) * squares

@[simp] theorem twist_zero_left (square : Nat → Int) (n b : Nat) : twist square n 0 b = 1 := by
  simp [twist]

@[simp] theorem twist_zero_right (square : Nat → Int) (n a : Nat) : twist square n a 0 = 1 := by
  simp [twist]

/-- The highest vector of the left blade contributes its crossings and, if shared, its square. -/
theorem twist_top (square : Nat → Int) {n a : Nat} (nonzero : a ≠ 0) (bounded : a < 2 ^ n) (b : Nat) :
    twist square n a b =
      paritySign (below b (top a)) * (if b.testBit (top a) then square (top a) else 1) *
        twist square n (dropTop a) (b ^^^ vector (top a)) := by
  have inside : top a < n := top_lt nonzero bounded
  have low : dropTop a < 2 ^ top a := dropTop_lt_top a
  -- The highest vector crosses what is below it, and the rest of the blade does not cross it.
  have crossing : crossings n a b =
      below b (top a) + crossings n (dropTop a) (b ^^^ vector (top a)) := by
    conv_lhs => rw [← dropTop_xor_top nonzero]
    rw [crossings_xor_left, crossings_xor_right, crossings_dropTop, crossings_vector inside]
    ring
  -- The rest of the blade lacks the highest vector, whose square is taken out of the product.
  have squares : sharedSquares square n a b =
      (if b.testBit (top a) then square (top a) else 1) *
        sharedSquares square n (dropTop a) (b ^^^ vector (top a)) := by
    rw [sharedSquares, sharedSquares, ← mul_prod_erase (range n) _ (mem_range.mpr inside),
      ← mul_prod_erase (range n) _ (mem_range.mpr inside), testBit_top nonzero,
      Nat.testBit_lt_two_pow low]
    simp only [Bool.true_and, Bool.false_and, Bool.false_eq_true, if_false, one_mul]
    congr 1
    refine prod_congr rfl fun i other => ?_
    have : top a ≠ i := (ne_of_mem_erase other).symm
    simp [dropTop_eq_xor nonzero, this]
  rw [twist, twist, crossing, squares, paritySign_add]
  ring

/-- Disjointness of three blades does not depend on the association. -/
theorem disjoint_cocycle (a b c : Nat) :
    (a &&& b = 0 ∧ (a ^^^ b) &&& c = 0) ↔ (b &&& c = 0 ∧ a &&& (b ^^^ c) = 0) := by
  -- Whether a blade is empty is read bit by bit, and each bit is a finite check.
  have bits (x : Nat) : x = 0 ↔ ∀ i, x.testBit i = false := by
    constructor
    · rintro rfl i
      exact Nat.zero_testBit i
    · intro none
      exact Nat.eq_of_testBit_eq fun i => by rw [none, Nat.zero_testBit]
  rw [bits, bits, bits, bits, ← forall_and, ← forall_and]
  refine forall_congr' fun i => ?_
  simp only [Nat.testBit_and, Nat.testBit_xor]
  cases a.testBit i <;> cases b.testBit i <;> cases c.testBit i <;> decide

/-- Two disjoint blades lie together within a third one if the second does, and the first lies within
what the second leaves. -/
theorem within_cocycle (a b c : Nat) :
    (a &&& b = 0 ∧ (a ^^^ b) &&& c = a ^^^ b) ↔ (b &&& c = b ∧ a &&& (b ^^^ c) = a) := by
  have bits (x y : Nat) : x = y ↔ ∀ i, x.testBit i = y.testBit i :=
    ⟨fun same i => by rw [same], Nat.eq_of_testBit_eq⟩
  rw [bits, bits, bits, bits, ← forall_and, ← forall_and]
  refine forall_congr' fun i => ?_
  simp only [Nat.testBit_and, Nat.testBit_xor, Nat.zero_testBit]
  cases a.testBit i <;> cases b.testBit i <;> cases c.testBit i <;> decide

end Clifford.Blade
