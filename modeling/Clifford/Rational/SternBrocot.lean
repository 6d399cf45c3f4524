import Clifford.Error

/-! Parents of a fraction in the tree of all fractions, found by a modular inverse. -/

namespace Clifford.SternBrocot

/-- Coefficients `(x, y)` with `a * x + b * y = gcd a b`. -/
def bezout (a b : Nat) : Int × Int :=
  if zero : b = 0 then (1, 0)
  else
    have : a % b < b := Nat.mod_lt _ (Nat.pos_of_ne_zero zero)
    let (x, y) := bezout b (a % b)
    (y, x - (a / b : Nat) * y)
termination_by b

/-- The inverse of `a` modulo `m` in the residues of the sign of `m`. -/
def inverse? (a m : Int) : Option Int :=
  if m = 0 ∨ Int.gcd a m ≠ 1 then none
  else some (Int.fmod (bezout (a % m).toNat m.natAbs).1 m)

/-- A numerator over a denominator, not necessarily in lowest terms. -/
abbrev Fraction := Int × Int

/-- The left and right parents of a fraction with a numerator of at least zero. -/
def parentsOfNonneg (num den : Int) : Result (Fraction × Fraction) :=
  match inverse? num den with
  | none => .error .notInvertible
  | some b =>
    let a := Int.fdiv (num * b - 1) den
    .ok ((a, b), (num - a, den - b))

/-- The left and right parents of a fraction. -/
def parents (num den : Int) : Result (Fraction × Fraction) :=
  if num < 0 then do
    -- Changing signs turns the tree of positive fractions around, so left and right swap.
    let ((ln, ld), (rn, rd)) ← parentsOfNonneg (-num) den
    return ((-rn, rd), (-ln, ld))
  else parentsOfNonneg num den

end Clifford.SternBrocot
