import Clifford.Error

/-! Signatures: how many basis vectors square to one, to minus one, and to zero. -/

namespace Clifford

/-- Numbers of positive, negative and degenerate basis vectors, at most twelve in all. -/
structure Signature where
  positive : Nat
  negative : Nat
  degenerate : Nat
  small : positive + negative + degenerate ≤ 12
deriving DecidableEq

namespace Signature

/-- The number of basis vectors. -/
def n (s : Signature) : Nat := s.positive + s.negative + s.degenerate

/-- The number of basis blades. -/
def dim (s : Signature) : Nat := 1 <<< s.n

/-- The three counts in order. -/
def counts (s : Signature) : List Int := [s.positive, s.negative, s.degenerate]

/-- The signature of three counts, which have to be non-negative and not too large. -/
def ofCounts (p q r : Int) : Result Signature :=
  if p < 0 then .error (.violation (.negativeCount "p" p))
  else if q < 0 then .error (.violation (.negativeCount "q" q))
  else if r < 0 then .error (.violation (.negativeCount "r" r))
  else if small : p.toNat + q.toNat + r.toNat ≤ 12 then .ok ⟨p.toNat, q.toNat, r.toNat, small⟩
  else .error (.violation (.tooManyDimensions (p.toNat + q.toNat + r.toNat)))

/-- The counts as named arguments of a type of metric or algebra. -/
def display (s : Signature) (kind : String) : String :=
  kind ++ "(p=" ++ toString s.positive ++ ", q=" ++ toString s.negative ++ ", r="
    ++ toString s.degenerate ++ ")"

end Signature

end Clifford
