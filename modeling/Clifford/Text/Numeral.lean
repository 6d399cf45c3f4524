/-! Numerals of messages and printed values: binary and hexadecimal numbers, tuples, and the
reading of integers. -/

namespace Clifford.Text

/-- The digits of a natural number in a radix of at most sixteen, most significant first. -/
def digits (radix n : Nat) : String :=
  String.ofList (Nat.toDigits radix n)

/-- The binary digits of a number. -/
def binary (n : Nat) : String := digits 2 n

/-- The hexadecimal digits of a number after the mark `0x`. -/
def hex (n : Nat) : String := "0x" ++ digits 16 n

/-- A tuple of numbers in parentheses, where a single entry keeps a trailing comma. -/
def tuple : List Nat → String
  | [n] => "(" ++ toString n ++ ",)"
  | ns => "(" ++ ", ".intercalate (ns.map toString) ++ ")"

/-- A list of texts in brackets. -/
def bracketed (items : List String) : String :=
  "[" ++ ", ".intercalate items ++ "]"

/-- A fixed number of hexadecimal digits, padded with zeros. -/
def paddedHex (width n : Nat) : String :=
  let text := digits 16 n
  "".pushn '0' (width - text.length) ++ text

/-- The characters that may stand around a number. -/
def isBlank (c : Char) : Bool :=
  c ∈ [' ', '\x85', '\xa0', '\u1680', '\u2028', '\u2029', '\u202f', '\u205f', '\u3000']
    || '\t' ≤ c && c ≤ '\r' || '\x1c' ≤ c && c ≤ '\x1f' || '\u2000' ≤ c && c ≤ '\u200a'

/-- The integer of a text: decimal digits, which single underscores may part, after an optional
sign and between blanks. -/
def integer? (text : String) : Option Int :=
  let magnitude (digits : List Char) : Option Int :=
    (String.ofList digits).toNat?.map fun (n : Nat) => n
  match ((text.toList.dropWhile isBlank).reverse.dropWhile isBlank).reverse with
  | '-' :: digits => (magnitude digits).map (- ·)
  | '+' :: digits => magnitude digits
  | digits => magnitude digits

end Clifford.Text
