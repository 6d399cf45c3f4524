import Clifford.Blade
import Clifford.Metric.Signature

/-! Metrics: a signature together with the basis in which blades are written. -/

namespace Clifford

/-- A signature with an orthogonal basis, with a marked pair of its two highest vectors, or with
the last positive and the negative vector replaced by two null vectors. -/
inductive Metric
  | diagonal (signature : Signature)
  | paired (signature : Signature) (two_le : 2 ≤ signature.n)
  | null (signature : Signature) (single : signature.negative = 1 ∧ signature.degenerate = 0)
      (positive : 1 ≤ signature.positive)
deriving DecidableEq

namespace Metric

/-- The signature of a metric. -/
def signature : Metric → Signature
  | diagonal s => s
  | paired s _ => s
  | null s _ _ => s

/-- The number of basis vectors. -/
def n (m : Metric) : Nat := m.signature.n

/-- The number of basis blades. -/
def dim (m : Metric) : Nat := m.signature.dim

/-- The blade of all basis vectors. -/
def pseudoscalar (m : Metric) : Nat := m.dim - 1

/-- Whether blades are written over an orthogonal basis. -/
def isDiagonal : Metric → Bool
  | diagonal _ => true
  | _ => false

/-- The orthogonal metric of the same signature. -/
def base (m : Metric) : Metric := diagonal m.signature

/-- The diagonal metric of three counts. -/
def ofDiagonal (p q r : Int) : Result Metric := do
  return diagonal (← Signature.ofCounts p q r)

/-- The metric of three counts with a marked pair, which needs two vectors. -/
def ofPaired (p q r : Int) : Result Metric := do
  let s ← Signature.ofCounts p q r
  if two_le : 2 ≤ s.n then return paired s two_le else .error (.violation .pairTooSmall)

/-- The metric with a null pair, which takes one negative and the last positive vector. -/
def ofNull (p q r : Int) : Result Metric :=
  if ¬(q = 1 ∧ r = 0) then .error (.violation .nullPairSignature)
  else if p < 1 then .error (.violation .nullPairPositive)
  else do
    let s ← Signature.ofCounts p q r
    if single : s.negative = 1 ∧ s.degenerate = 0 then
      if positive : 1 ≤ s.positive then return null s single positive
      else .error (.violation .nullPairPositive)
    else .error (.violation .nullPairSignature)

/-- The square of an orthogonal basis vector, where indices outside the basis count too. -/
def diagonalSquare (s : Signature) (index : Int) : Int :=
  if index < s.positive then 1 else if index < s.positive + s.negative then -1 else 0

/-- The indices of the two highest basis vectors. -/
def pair (m : Metric) : Nat × Nat := (m.n - 2, m.n - 1)

/-- The bits of the two highest basis vectors. -/
def pairMask (m : Metric) : Nat := Blade.vector m.pair.1 + Blade.vector m.pair.2

/-- The square of a basis vector, which is zero for the vectors of a null pair. -/
def square (m : Metric) (index : Int) : Int :=
  match m with
  | null s _ _ =>
    if index = (m.pair.1 : Int) ∨ index = (m.pair.2 : Int) then 0 else diagonalSquare s index
  | _ => diagonalSquare m.signature index

/-- The vector of a blade that has a product with a basis vector, and that product. -/
def partner? (m : Metric) (index blade : Nat) : Option (Nat × Int) :=
  let self := if Blade.contains blade index then some (index, m.square index) else none
  match m with
  | null _ _ _ =>
    -- A null vector meets the other one of its pair and not itself.
    let meet (other : Nat) := if Blade.contains blade other then some (other, (-1 : Int)) else none
    if index = m.pair.1 then meet m.pair.2
    else if index = m.pair.2 then meet m.pair.1
    else self
  | _ => self

/-- The partner of a basis vector whose index has to be non-negative. -/
def partnerAt (m : Metric) (index : Int) (blade : Nat) : Result (Option (Nat × Int)) :=
  if index < 0 then .error .negativeIndex else .ok (m.partner? index.toNat blade)

/-- Whether a blade involves the pair of a metric that is not diagonal. -/
def touches (m : Metric) (blade : Nat) : Bool :=
  !m.isDiagonal && (blade &&& m.pairMask) ≠ 0

/-- The written form of a metric. -/
def display (m : Metric) : String :=
  m.signature.display (match m with
    | diagonal _ => "Metric"
    | paired _ _ => "ChangeOfBasisMetric"
    | null _ _ _ => "NullMetric")

end Metric

end Clifford
