import Clifford.Rational.Gate

/-! Coefficient arithmetic: exact rational operations whose results pass the overflow gate. -/

namespace Clifford

/-- The quotient of two integers. -/
def ratio (num den : Int) : Result Rat :=
  if den = 0 then .error .zeroDenominator else .ok (Rat.divInt num den)

/-- The gated sum of two coefficients. -/
def gatedAdd (x y : Rat) : Result Rat := gate (x + y)

/-- The gated difference of two coefficients. -/
def gatedSub (x y : Rat) : Result Rat := gate (x - y)

/-- The gated product of two coefficients. -/
def gatedMul (x y : Rat) : Result Rat := gate (x * y)

/-- The gated quotient of two coefficients. -/
def gatedDiv (x y : Rat) : Result Rat :=
  if y = 0 then .error .zeroDivisor else gate (x / y)

/-- The exact reciprocal of a coefficient. -/
def reciprocal (x : Rat) : Result Rat :=
  if x = 0 then .error .zeroReciprocal else .ok x⁻¹

/-- The encoding of the double nearest to a coefficient. -/
def doubleBits (x : Rat) : Result UInt64 :=
  match Binary64.encode x with
  | some bits => .ok bits
  | none => .error .quotientOverflow

/-- The double nearest to a coefficient. -/
def toDouble (x : Rat) : Result Float := do
  return Float.ofBits (← doubleBits x)

/-- A coefficient as a numerator, with a denominator unless that is one. -/
def ratioText (x : Rat) : String :=
  if x.den = 1 then toString x.num else toString x.num ++ "/" ++ toString x.den

/-- A coefficient as a numerator and a denominator under the name of its kind. -/
def ratioDisplay (kind : String) (x : Rat) : String :=
  kind ++ "(" ++ toString x.num ++ ", " ++ toString x.den ++ ")"

/-- The residue of a rational modulo the prime `2 ^ 61 - 1`, on which equal numbers agree. -/
def residue (x : Rat) : Int :=
  let modulus : Int := 0x1FFFFFFFFFFFFFFF
  let magnitude := match SternBrocot.inverse? x.den modulus with
    | some inverse => x.num.natAbs * inverse % modulus
    | none => 314159
  let signed := if x.num < 0 then -magnitude else magnitude
  -- The residue minus one is reserved.
  if signed = -1 then -2 else signed

end Clifford
