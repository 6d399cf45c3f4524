/-! Basis blades as bit masks: bit `i` is set when basis vector `i` is a factor. -/

namespace Clifford.Blade

/-- The number of basis vectors of a blade. -/
def grade (blade : Nat) : Nat :=
  if blade = 0 then 0 else blade % 2 + grade (blade / 2)
termination_by blade

/-- The blade of a single basis vector. -/
def vector (index : Nat) : Nat := 1 <<< index

/-- A basis vector has a bit set. -/
theorem vector_pos (index : Nat) : 0 < vector index := by
  -- The shifted bit is a power of two.
  rw [vector, Nat.one_shiftLeft]
  exact Nat.two_pow_pos index

/-- A blade contains a basis vector. -/
def contains (blade index : Nat) : Bool := blade.testBit index

/-- The number of basis vectors of a blade below an index. -/
def countBelow (blade index : Nat) : Nat := grade (blade % vector index)

/-- The index of the highest basis vector of a nonzero blade. -/
def top (blade : Nat) : Nat := blade.log2

/-- A nonzero blade without its highest basis vector. -/
def dropTop (blade : Nat) : Nat := blade - vector (top blade)

/-- Removing the highest basis vector leaves a smaller blade. -/
theorem dropTop_lt {blade : Nat} (nonzero : blade ≠ 0) : dropTop blade < blade :=
  -- A positive number is taken from a positive one.
  Nat.sub_lt (Nat.pos_of_ne_zero nonzero) (vector_pos _)

/-- The sign of a permutation that takes the given number of swaps. -/
def swapSign (swaps : Nat) : Int := if swaps % 2 = 1 then -1 else 1

/-- The sign of reversing the factors of a blade. -/
def reversionSign (blade : Nat) : Int :=
  swapSign (grade blade * (grade blade - 1) / 2)

/-- The swaps that sort a blade followed by the vectors missing below its highest one. -/
def complementSwaps (blade remaining : Nat) : Nat :=
  if blade = 0 then 0
  else if blade % 2 = 1 then complementSwaps (blade / 2) (remaining - 1)
  else remaining + complementSwaps (blade / 2) remaining
termination_by blade

/-- The complementary blade `f` in `n` dimensions and the sign with `e ∧ f = sign * I`. -/
def complement (blade n : Nat) : Nat × Int :=
  ((vector n - 1) ^^^ blade, swapSign (complementSwaps blade (grade blade)))

/-- The sign `s` with `I⁻¹ = s * I` where `q` vectors square to minus one and none to zero. -/
def pseudoscalarInverseSign (n q : Int) : Int :=
  if (n * (n - 1) / 2 + q) % 2 = 0 then 1 else -1

end Clifford.Blade
