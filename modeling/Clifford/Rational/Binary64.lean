/-! Rounding of exact rationals to binary64, the double precision format, in integer arithmetic. -/

namespace Clifford.Binary64

/-- The quotient of two natural numbers rounded to the nearest one, where a tie goes to even. -/
def divideHalfEven (n d : Nat) : Nat :=
  let q := n / d
  if 2 * (n % d) < d then q
  else if d < 2 * (n % d) then q + 1
  else q + q % 2

/-- The exponent of the leading binary digit of a positive quotient. -/
def leadingExponent (num den : Nat) : Int :=
  let guess : Int := (num.log2 : Int) - den.log2
  -- The quotient of the leading digits is at most one place too high.
  if den <<< guess.toNat ≤ num <<< (-guess).toNat then guess else guess - 1

/-- The exponent of the last place of the double nearest to a positive quotient. -/
def placeExponent (num den : Nat) : Int :=
  max (leadingExponent num den - 52) (-1074)

/-- The significand of the double nearest to a positive quotient, in units of its last place. -/
def significand (num den : Nat) : Nat :=
  let e := placeExponent num den
  divideHalfEven (num <<< (-e).toNat) (den <<< e.toNat)

/-- The exact value of `m * 2 ^ e`. -/
def scaled (m : Nat) (e : Int) : Rat :=
  if 0 ≤ e then (m <<< e.toNat : Nat) else mkRat m (1 <<< (-e).toNat)

/-- The double nearest to a rational as an exact rational, or nothing beyond the finite range. -/
def nearest (x : Rat) : Option Rat :=
  let m := significand x.num.natAbs x.den
  let e := placeExponent x.num.natAbs x.den
  if m <<< e.toNat < 1 <<< 1024 then
    some (if x.num < 0 then -scaled m e else scaled m e)
  else none

/-- The value of the leading bit of a significand, which an encoding leaves out. -/
def hiddenBit : Nat := 1 <<< 52

/-- The value of the bit of an encoding that marks negative numbers. -/
def signBit : Nat := 1 <<< 63

/-- The encoding of the double nearest to a rational, or nothing beyond the finite range. -/
def encode (x : Rat) : Option UInt64 :=
  let sign : Nat := if x.num < 0 then signBit else 0
  if x.num = 0 then some 0
  else
    let m := significand x.num.natAbs x.den
    let e := placeExponent x.num.natAbs x.den
    -- A significand of at least `2 ^ 52` carries into the exponent field by itself.
    if m <<< e.toNat < 1 <<< 1024 then
      some (UInt64.ofNat (sign + ((e + 1074).toNat * hiddenBit + m)))
    else none

/-- The exact value of a finite double, or nothing for infinities and undefined numbers. -/
def decode (bits : UInt64) : Option Rat :=
  let word := bits.toNat
  let field : Nat := word / hiddenBit % 2048
  let fraction : Nat := word % hiddenBit
  if field = 2047 then none
  else
    let magnitude :=
      if field = 0 then scaled fraction (-1074)
      else scaled (hiddenBit + fraction) ((field : Int) - 1075)
    some (if word < signBit then magnitude else -magnitude)

end Clifford.Binary64
