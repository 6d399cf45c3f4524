import Clifford.Proofs.Rational.Parents

/-! The tree of all fractions, in which the mediant of two neighbours hangs between them. The parents that
are found by a modular inverse are the two neighbours between which the fraction hangs there, and no other
fraction between them has a denominator as small. -/

namespace Clifford.SternBrocot

/-- The fraction whose numerator and denominator are the sums of those of two others. -/
def mediant (left right : Fraction) : Fraction := (left.1 + right.1, left.2 + right.2)

/-- The intervals of the tree: the positive numbers, the negative numbers, and the two parts into which the
mediant splits an interval. Infinity of either sign has the denominator zero. -/
inductive Interval : Fraction → Fraction → Prop
  | positive : Interval (0, 1) (1, 0)
  | negative : Interval (-1, 0) (0, 1)
  | lower {left right : Fraction} : Interval left right → Interval left (mediant left right)
  | upper {left right : Fraction} : Interval left right → Interval (mediant left right) right

namespace Interval

variable {left right : Fraction}

/-- No denominator in the tree is negative. -/
theorem den_nonneg (interval : Interval left right) : 0 ≤ left.2 ∧ 0 ≤ right.2 := by
  induction interval with
  | positive => decide
  | negative => decide
  | lower _ ih => exact ⟨ih.1, add_nonneg ih.1 ih.2⟩
  | upper _ ih => exact ⟨add_nonneg ih.1 ih.2, ih.2⟩

/-- Both ends of an interval are neighbours, and a mediant is a neighbour of either. -/
theorem neighbours (interval : Interval left right) : right.1 * left.2 - left.1 * right.2 = 1 := by
  -- The determinant stays the same when one end is added to the other.
  induction interval with
  | positive => decide
  | negative => decide
  | lower _ ih =>
    rw [mediant]
    linear_combination ih
  | upper _ ih =>
    rw [mediant]
    linear_combination ih

/-- A natural number and infinity are the ends of an interval. -/
theorem natural (n : Nat) : Interval (n, 1) (1, 0) := by
  -- Each step is the mediant with infinity.
  induction n with
  | zero => exact .positive
  | succ n ih => simpa [mediant] using ih.upper

/-- Negative infinity and the opposite of a natural number are the ends of an interval. -/
theorem opposite (n : Nat) : Interval (-1, 0) (-n, 1) := by
  induction n with
  | zero => exact .negative
  | succ n ih => simpa [mediant, add_comm] using ih.lower

/-- An integer and the next one are the ends of an interval. -/
theorem whole (n : Int) : Interval (n, 1) (n + 1, 1) := by
  -- From zero on the next integer is a mediant with infinity, and below zero the integer itself is one.
  cases n with
  | ofNat n => simpa [mediant] using (natural n).lower
  | negSucc n => simpa [mediant, Int.negSucc_eq, add_comm] using (opposite n).upper

end Interval

/-- Neighbours with positive denominators are the ends of an interval. -/
theorem interval_of_neighbours {left right : Fraction} (leftPositive : 0 < left.2)
    (rightPositive : 0 < right.2) (neighbours : right.1 * left.2 - left.1 * right.2 = 1) :
    Interval left right := by
  obtain ⟨a, b⟩ := left
  obtain ⟨c, d⟩ := right
  dsimp only at leftPositive rightPositive neighbours
  -- The end with the larger denominator was the mediant of an interval, so the induction subtracts as
  -- Euclid's algorithm does.
  induction size : (b + d).toNat using Nat.strong_induction_on generalizing a b c d with
  | _ n ih =>
    rcases lt_trichotomy b d with less | rfl | more
    · have outer : Interval (a, b) (c - a, d - b) :=
        ih _ (by omega) a b leftPositive (c - a) (d - b) (by omega) (by linear_combination neighbours) rfl
      simpa [mediant] using outer.lower
    · -- The common denominator divides the determinant.
      have divides : b ∣ 1 := ⟨c - a, by linear_combination -neighbours⟩
      obtain rfl : b = 1 := Int.eq_one_of_dvd_one leftPositive.le divides
      obtain rfl : c = a + 1 := by omega
      exact .whole a
    · have outer : Interval (a - c, b - d) (c, d) :=
        ih _ (by omega) (a - c) (b - d) (by omega) c d rightPositive (by linear_combination neighbours) rfl
      simpa [mediant] using outer.upper

/-- The ends of an interval are the parents of its mediant, unless that is an integer. -/
theorem Interval.parents_of_mediant {num den : Int} {left right : Fraction} (interval : Interval left right)
    (hangs : mediant left right = (num, den)) (fraction : 1 < den) : Parents num den left right := by
  obtain ⟨leftNonneg, rightNonneg⟩ := interval.den_nonneg
  have neighbours := interval.neighbours
  have num_eq : left.1 + right.1 = num := congrArg Prod.fst hangs
  have den_eq : left.2 + right.2 = den := congrArg Prod.snd hangs
  -- Next to infinity the other end is an integer, and so is the mediant.
  refine ⟨leftNonneg.lt_of_ne fun zero => ?_, rightNonneg.lt_of_ne fun zero => ?_, num_eq, den_eq, neighbours⟩
  · -- The determinant makes the other denominator a divisor of one.
    have divides : right.2 ∣ 1 := ⟨-left.1, by linear_combination -neighbours - right.1 * zero⟩
    have := Int.eq_one_of_dvd_one rightNonneg divides
    omega
  · have divides : left.2 ∣ 1 := ⟨right.1, by linear_combination -neighbours + left.1 * zero⟩
    have := Int.eq_one_of_dvd_one leftNonneg divides
    omega

namespace Parents

variable {num den : Int} {left right left' right' : Fraction}

/-- A fraction has no other parents. -/
theorem unique (family : Parents num den left right) (other : Parents num den left' right')
    (coprime : Int.gcd num den = 1) : left' = left ∧ right' = right := by
  have gap := family.left_gap
  have gap' := other.left_gap
  obtain ⟨leftPositive, rightPositive, num_eq, den_eq, -⟩ := family
  obtain ⟨leftPositive', rightPositive', num_eq', den_eq', -⟩ := other
  -- The denominators on the left are inverses modulo the same denominator, and smaller than it.
  have divides : den ∣ left'.2 - left.2 :=
    IsCoprime.dvd_of_dvd_mul_left (Int.isCoprime_iff_gcd_eq_one.mpr coprime).symm
      ⟨left'.1 - left.1, by linear_combination gap' - gap⟩
  have leftDen : left'.2 = left.2 := by
    have := Int.eq_zero_of_abs_lt_dvd divides (abs_lt.mpr ⟨by omega, by omega⟩)
    omega
  have leftNum : left'.1 = left.1 := by
    refine mul_right_cancel₀ (b := den) (by omega) ?_
    rw [leftDen] at gap'
    linear_combination gap - gap'
  exact ⟨Prod.ext leftNum leftDen, Prod.ext (by omega) (by omega)⟩

/-- What lies between the parents of a fraction has at least its denominator, and is that fraction if it has
the same one. -/
theorem den_le_of_between (family : Parents num den left right) {p q : Int}
    (above : left.1 * q < p * left.2) (below : p * right.2 < right.1 * q) :
    den ≤ q ∧ (q = den → p = num) := by
  have neighbours := family.neighbours
  have den_eq := family.den_eq
  have leftPositive := family.leftPositive
  have rightPositive := family.rightPositive
  -- Every fraction is made of multiples of two neighbours, which are positive for one between them.
  have numerator : p = (right.1 * q - p * right.2) * left.1 + (p * left.2 - left.1 * q) * right.1 := by
    linear_combination -p * neighbours
  have denominator : q = (right.1 * q - p * right.2) * left.2 + (p * left.2 - left.1 * q) * right.2 := by
    linear_combination -q * neighbours
  have least : 1 ≤ right.1 * q - p * right.2 := by omega
  have least' : 1 ≤ p * left.2 - left.1 * q := by omega
  generalize right.1 * q - p * right.2 = x at numerator denominator least
  generalize p * left.2 - left.1 * q = y at numerator denominator least'
  have leftPart : left.2 ≤ x * left.2 := le_mul_of_one_le_left leftPositive.le least
  have rightPart : right.2 ≤ y * right.2 := le_mul_of_one_le_left rightPositive.le least'
  refine ⟨by omega, fun same => ?_⟩
  -- With the same denominator both multiples are single.
  have single : x = 1 := by
    refine mul_right_cancel₀ leftPositive.ne' ?_
    omega
  have single' : y = 1 := by
    refine mul_right_cancel₀ rightPositive.ne' ?_
    omega
  rw [numerator, single, single', one_mul, one_mul, family.num_eq]

end Parents

/-- Parents that enclose a fraction: both are simpler than it, and between them it is alone among the
fractions with a denominator up to its own. -/
structure Enclosed (num den : Int) (left right : Fraction) : Prop extends Parents num den left right where
  leftDen_lt : left.2 < den
  rightDen_lt : right.2 < den
  left_lt : (left.1 : Rat) / left.2 < num / den
  lt_right : (num : Rat) / den < right.1 / right.2
  alone : ∀ p q : Int, 0 < q → q ≤ den → (left.1 : Rat) / left.2 < p / q →
    (p : Rat) / q < right.1 / right.2 → (p : Rat) / q = num / den

/-- Fractions are in the order of the products across. -/
theorem quotient_lt_quotient {a b c d : Int} (positive : 0 < b) (positive' : 0 < d) :
    (a : Rat) / b < c / d ↔ a * d < c * b := by
  rw [div_lt_div_iff₀ (by exact_mod_cast positive) (by exact_mod_cast positive')]
  exact_mod_cast Iff.rfl

/-- All parents of a fraction enclose it. -/
theorem Parents.enclosed {num den : Int} {left right : Fraction} (family : Parents num den left right)
    (positive : 0 < den) : Enclosed num den left right where
  toParents := family
  -- Both denominators are positive and add up to that of the fraction.
  leftDen_lt := by
    linarith [family.den_eq, family.rightPositive]
  rightDen_lt := by
    linarith [family.den_eq, family.leftPositive]
  -- The gaps are one over the product of the denominators.
  left_lt := by
    rw [quotient_lt_quotient family.leftPositive positive]
    linarith [family.left_gap]
  lt_right := by
    rw [quotient_lt_quotient positive family.rightPositive]
    linarith [family.right_gap]
  alone p q positive' small above below := by
    rw [quotient_lt_quotient family.leftPositive positive'] at above
    rw [quotient_lt_quotient positive' family.rightPositive] at below
    obtain ⟨large, same⟩ := family.den_le_of_between above below
    have equal : q = den := le_antisymm small large
    rw [equal, same equal]

/-- The parents of a fraction other than an integer are found, enclose it, and are the ends of the one
interval of the tree that it is the mediant of. -/
theorem parents_enclose {num den : Int} (fraction : 1 < den) (coprime : Int.gcd num den = 1) :
    ∃ left right, parents num den = .ok (left, right) ∧ Enclosed num den left right ∧
      ∀ l r, Interval l r ∧ mediant l r = (num, den) ↔ l = left ∧ r = right := by
  obtain ⟨left, right, found, family⟩ := parents_spec fraction coprime
  refine ⟨left, right, found, family.enclosed (by omega), fun l r => ⟨?_, ?_⟩⟩
  · -- The ends of every interval with this mediant are parents, of which there is one pair.
    rintro ⟨interval, hangs⟩
    exact family.unique (interval.parents_of_mediant hangs fraction) coprime
  · rintro ⟨rfl, rfl⟩
    exact ⟨interval_of_neighbours family.leftPositive family.rightPositive family.neighbours,
      Prod.ext family.num_eq family.den_eq⟩

/-- A negative fraction hangs between those parents that its opposite has, turned around. -/
theorem parents_enclose_negative :
    (1 < (1021 : Int) ∧ Int.gcd (-1000) 1021 = 1) ∧
      parents (-1000) 1021 = .ok ((-381, 389), (-619, 632)) ∧
      Enclosed (-1000) 1021 (-381, 389) (-619, 632) ∧ Interval (-381, 389) (-619, 632) := by
  have coprime : Int.gcd (-1000) 1021 = 1 := by decide
  have given : parents (-1000) 1021 = .ok ((-381, 389), (-619, 632)) := by decide +kernel
  obtain ⟨left, right, found, enclosed, place⟩ := parents_enclose (by decide) coprime
  cases found.symm.trans given
  exact ⟨⟨by decide, coprime⟩, given, enclosed, ((place _ _).mpr ⟨rfl, rfl⟩).1⟩

end Clifford.SternBrocot
