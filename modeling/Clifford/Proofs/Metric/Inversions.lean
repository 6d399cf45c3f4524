import Clifford.Proofs.Metric.Coefficient

/-! The sign of the geometric product of two blades is that of sorting their vectors: every inversion
counts once, and every common vector contributes its square. -/

namespace Clifford

open Finset

namespace Blade

/-- The indices of the vectors of a blade. -/
def vectors (blade : Nat) : Finset Nat := blade.bitIndices.toFinset

/-- The vectors of a blade are its bits. -/
@[simp] theorem mem_vectors {blade index : Nat} : index ∈ vectors blade ↔ blade.testBit index := by
  rw [vectors, List.mem_toFinset, Nat.mem_bitIndices]

/-- The pairs of a vector of the first blade and a vector of the second one that are out of order. -/
def inversions (a b : Nat) : Nat := #{p ∈ vectors a ×ˢ vectors b | p.2 < p.1}

/-- The sign of a parity is a power of minus one. -/
theorem paritySign_natCast (k : Nat) : paritySign k = (-1) ^ k := by
  -- Parities are residues modulo two, and the power of minus one only sees the residue.
  rcases Nat.even_or_odd k with even | odd
  · rw [even.neg_one_pow, (ZMod.natCast_eq_zero_iff_even).mpr even, paritySign_zero]
  · rw [odd.neg_one_pow, (ZMod.natCast_eq_one_iff_odd).mpr odd]
    rfl

/-- The vectors below an index, counted among the vectors of the blade. -/
theorem below_eq_card (b index : Nat) : below b index = (#{j ∈ vectors b | j < index} : Nat) := by
  have same : {j ∈ vectors b | j < index} = {j ∈ range index | b.testBit j} := by
    ext j
    simp [and_comm]
  rw [same, card_filter, Nat.cast_sum, below]
  -- Each vector of the range counts if it is one of the blade.
  exact sum_congr rfl fun j _ => by split <;> simp

variable {n a : Nat}

/-- The vectors of a bounded blade, listed below the bound. -/
theorem vectors_eq_filter (bounded : a < 2 ^ n) : vectors a = {i ∈ range n | a.testBit i} := by
  ext i
  simp only [mem_vectors, mem_filter, mem_range]
  exact ⟨fun set => ⟨lt_of_testBit bounded set, set⟩, fun inside => inside.2⟩

/-- The crossings of two blades are the parity of their inversions. -/
theorem crossings_eq_inversions (bounded : a < 2 ^ n) (b : Nat) :
    crossings n a b = (inversions a b : Nat) := by
  -- The inversions are counted for one vector of the first blade after the other.
  have rows : inversions a b = ∑ i ∈ vectors a, #{j ∈ vectors b | j < i} := by
    rw [inversions, card_filter, sum_product]
    exact sum_congr rfl fun i _ => (card_filter _ _).symm
  rw [rows, vectors_eq_filter bounded, sum_filter, Nat.cast_sum, crossings]
  refine sum_congr rfl fun i _ => ?_
  split
  · exact below_eq_card b i
  · exact Nat.cast_zero.symm

/-- The shared squares are those of the common vectors. -/
theorem sharedSquares_eq_prod (square : Nat → Int) (bounded : a < 2 ^ n) (b : Nat) :
    sharedSquares square n a b = ∏ i ∈ vectors a ∩ vectors b, square i := by
  -- The vectors that both blades have are found below the bound.
  have same : vectors a ∩ vectors b = {i ∈ range n | a.testBit i && b.testBit i} := by
    ext i
    rw [mem_inter, vectors_eq_filter bounded]
    simp [and_assoc]
  rw [same, prod_filter, sharedSquares]

/-- The factor of sorting the vectors of two blades: the sign of the inversions times the squares of
the common vectors. -/
def sortingFactor (square : Nat → Int) (a b : Nat) : Int :=
  (-1) ^ inversions a b * ∏ i ∈ vectors a ∩ vectors b, square i

/-- The factor of the product of two blades is that of sorting them. -/
theorem twist_eq_sortingFactor (square : Nat → Int) (bounded : a < 2 ^ n) (b : Nat) :
    twist square n a b = sortingFactor square a b := by
  rw [twist, crossings_eq_inversions bounded, paritySign_natCast, sharedSquares_eq_prod _ bounded,
    sortingFactor]

/-- The factors of sorting three blades do not depend on the association. -/
theorem sortingFactor_cocycle (square : Nat → Int) (a b c : Nat) :
    sortingFactor square a b * sortingFactor square (a ^^^ b) c =
      sortingFactor square b c * sortingFactor square a (b ^^^ c) := by
  -- Some power of two is a bound on both left blades.
  obtain ⟨left, right⟩ := lt_two_pow_add a b
  have law := twist_cocycle square (a + b) a b c
  rwa [twist_eq_sortingFactor _ left, twist_eq_sortingFactor _ left, twist_eq_sortingFactor _ right,
    twist_eq_sortingFactor _ (Nat.xor_lt_two_pow left right)] at law

end Blade

namespace BladeProduct

open Blade

/-- A product of blades is associative with its signs: both ways to multiply three blades have the
same sign, and the same blade unless that is zero. -/
def AssociativeWithSigns (mul : Nat → Nat → Nat × Int) : Prop :=
  ∀ a b c, (mul a b).2 * (mul (mul a b).1 c).2 = (mul b c).2 * (mul a (mul b c).1).2 ∧
    ((mul a b).2 * (mul (mul a b).1 c).2 ≠ 0 → (mul (mul a b).1 c).1 = (mul a (mul b c).1).1)

/-- Blades that multiply with the factors of a cocycle are associative with their signs. -/
theorem associativeWithSigns_weighted {factor : Nat → Nat → Int}
    (cocycle : ∀ a b c, factor a b * factor (a ^^^ b) c = factor b c * factor a (b ^^^ c)) :
    AssociativeWithSigns fun a b => weighted (a ^^^ b) (factor a b) := by
  intro a b c
  have law := cocycle a b c
  simp only [weighted]
  -- Where the first product on a side is zero, its sign makes up for the blade that is left out.
  by_cases left : factor a b = 0
  · rw [left, zero_mul] at law
    by_cases right : factor b c = 0
    · simp [left, right]
    · simp [left, right, (mul_eq_zero.mp law.symm).resolve_left right]
  · by_cases right : factor b c = 0
    · rw [right, zero_mul] at law
      simp [left, right, (mul_eq_zero.mp law).resolve_left left]
    · simp only [left, right, if_false]
      refine ⟨law, fun nonzero => ?_⟩
      have first := (mul_ne_zero_iff.mp nonzero).2
      have second := (mul_ne_zero_iff.mp (law ▸ nonzero)).2
      rw [if_neg first, if_neg second, Nat.xor_assoc]

/-- The geometric product of two blades of any width over an orthogonal basis. -/
theorem compute_geometric (s : Signature) (a b : Nat) :
    geometric.compute (.diagonal s) a b =
      weighted (a ^^^ b) (sortingFactor (Metric.squares s) a b) := by
  -- The walk goes over the bits of the left blade, which has some bound.
  have bounded : a < 2 ^ a := Nat.lt_two_pow_self
  rw [← twist_eq_sortingFactor _ bounded]
  exact geometricProduct_eq s bounded b

/-- The geometric product of blades over an orthogonal basis, whatever their width: the walk counts
inversions and multiplies the squares of the common vectors, and it is associative with its signs. -/
theorem geometric_counts_inversions (s : Signature) :
    (∀ a b, geometric.compute (.diagonal s) a b =
      if ∏ i ∈ vectors a ∩ vectors b, (Metric.diagonal s).square i = 0 then (0, 0)
      else (a ^^^ b, (-1) ^ inversions a b *
        ∏ i ∈ vectors a ∩ vectors b, (Metric.diagonal s).square i)) ∧
    AssociativeWithSigns (geometric.compute (.diagonal s)) := by
  constructor
  · intro a b
    have squares (i : Nat) : (Metric.diagonal s).square i = Metric.squares s i := rfl
    rw [compute_geometric, weighted, sortingFactor]
    simp only [squares]
    -- A power of minus one is not zero, so only a null vector makes the factor vanish.
    by_cases null : ∏ i ∈ vectors a ∩ vectors b, Metric.squares s i = 0
    · rw [null, mul_zero, if_pos rfl, if_pos rfl]
    · rw [if_neg (mul_ne_zero (pow_ne_zero _ (by decide)) null), if_neg null]
  · rw [show geometric.compute (.diagonal s) = fun a b =>
      weighted (a ^^^ b) (sortingFactor (Metric.squares s) a b) from
        funext₂ (compute_geometric s)]
    exact associativeWithSigns_weighted (sortingFactor_cocycle _)

end BladeProduct

end Clifford
