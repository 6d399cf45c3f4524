import Clifford.Rational.Binary64
import Clifford.Text.Numeral

/-! Decimal numbers in scientific notation, rounded from the exact value of a double. -/

namespace Clifford.Text

/-- The digits shown behind the point, and the magnitude below which a number counts as zero. -/
structure Scientific where
  places : Nat
  threshold : Float

namespace Scientific

/-- A number with zeros appended to its decimal digits. -/
def appendZeros (n : Nat) : Nat → Nat
  | 0 => n
  | count + 1 => appendZeros n count * 10

/-- A positive quotient as a number of `places + 1` digits and a decimal exponent: exact multiples
of a half in the last place go to the even neighbour. -/
def digitsAt (places : Nat) (num den : Nat) (exponent : Int) : Nat :=
  let shift := (places : Int) - exponent
  Binary64.divideHalfEven (appendZeros num shift.toNat) (appendZeros den (-shift).toNat)

/-- The number of decimal places that the integer part of a quotient is estimated to have. -/
def decimalGuess (num den : Nat) : Int :=
  ((toString num).length : Int) - (toString den).length

/-- The exponent of the leading decimal digit of a positive quotient. -/
def leadingDecimal (num den : Nat) : Int :=
  let guess := decimalGuess num den
  -- A quotient of lengths is at most one place too high.
  if appendZeros den guess.toNat ≤ appendZeros num (-guess).toNat then guess else guess - 1

/-- The leading digits and the exponent of a positive quotient, where rounding may carry. -/
def parts (places num den : Nat) : Nat × Int :=
  let exponent := leadingDecimal num den
  let digits := digitsAt places num den exponent
  if digits < appendZeros 1 (places + 1) then (digits, exponent) else (digits / 10, exponent + 1)

/-- An exponent with its sign and at least two digits. -/
def exponentText (exponent : Int) : String :=
  let digits := toString exponent.natAbs
  (if exponent < 0 then "e-" else "e+") ++ "".pushn '0' (2 - digits.length) ++ digits

/-- The text of a finite number other than zero. -/
def ofRat (format : Scientific) (x : Rat) : String :=
  let (digits, exponent) := parts format.places x.num.natAbs x.den
  let text := (toString digits).toList
  let fraction := if format.places = 0 then [] else '.' :: text.drop 1
  (if x < 0 then "-" else "") ++ String.ofList (text.take 1 ++ fraction) ++ exponentText exponent

/-- The text of a double. -/
def ofFloat (format : Scientific) (x : Float) : String :=
  if x.isNaN then "nan"
  else if x.abs < format.threshold then "0"
  else match Binary64.decode x.toBits with
    | some q => format.ofRat q
    | none => if x < 0 then "-inf" else "inf"

end Scientific

end Clifford.Text
