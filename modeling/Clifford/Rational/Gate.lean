import Clifford.Rational.Binary64
import Clifford.Rational.SternBrocot

/-! The overflow gate: coefficients with a large denominator are replaced by a close simpler one. -/

namespace Clifford

/-- Coefficients with a denominator below the threshold stay exact. -/
def gateThreshold : Nat := 1024

/-- The relative tolerance of the gate, which is the double nearest to `10⁻⁷`. -/
def gateTolerance : Rat := mkRat 944473296573929 (1 <<< 73)

/-- Two doubles differ by at most the tolerance times the second, in double precision. -/
def gateAccepts (candidate value : Rat) : Bool :=
  match Binary64.nearest (candidate - value), Binary64.nearest (gateTolerance * value.abs) with
  | some error, some limit => error.abs ≤ limit
  | _, _ => false

/-- The parent that stands in for a fraction: left for an odd numerator, right for an even one. -/
def gateCandidate (num den : Int) : Result Rat := do
  let (left, right) ← SternBrocot.parents num den
  return if num % 2 = 0 then Rat.divInt right.1 right.2 else Rat.divInt left.1 left.2

/-- The double nearest to a rational, which has to be finite. -/
def nearestDouble (x : Rat) : Result Rat :=
  match Binary64.nearest x with
  | some value => .ok value
  | none => .error .quotientOverflow

/-- A rational below the threshold is kept, a tiny one vanishes, and any other gives way to its
parent of the right parity where the two are close as doubles. -/
def gate (x : Rat) : Result Rat :=
  if x.den < gateThreshold then .ok x
  else do
    let value ← nearestDouble x
    if value.abs < gateTolerance then return 0
    let candidate ← gateCandidate x.num x.den
    let rounded ← nearestDouble candidate
    return if gateAccepts rounded value then candidate else x

/-- The gate on a numerator and a denominator, which are reduced first. -/
def gateFraction (num den : Int) : Result (Int × Int) :=
  let g : Int := Int.gcd num den
  let (n, d) := if 1 < g then (num / g, den / g) else (num, den)
  if d < gateThreshold then .ok (n, d)
  else do
    let x ← gate (Rat.divInt n d)
    return (x.num, x.den)

end Clifford
