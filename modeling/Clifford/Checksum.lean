import Clifford.Opcode
import Clifford.Rational.Literal

/-! Fingerprints of compiled code: the 32-bit cyclic redundancy check of a list of numbers. -/

namespace Clifford.Checksum

/-- The generator polynomial with its lowest degree in the highest bit. -/
def polynomial : UInt32 := 0xEDB88320

/-- Shifts one bit out of the register. -/
def shiftBit (register : UInt32) : UInt32 :=
  if register &&& 1 = 0 then register >>> 1 else (register >>> 1) ^^^ polynomial

/-- Shifts the given number of bits out of the register. -/
def shiftBits : Nat → UInt32 → UInt32
  | 0, register => register
  | bits + 1, register => shiftBits bits (shiftBit register)

/-- Feeds one byte into the register. -/
def feed (register byte : UInt32) : UInt32 := shiftBits 8 (register ^^^ byte)

/-- The cyclic redundancy check of a text of bytes. -/
def ofText (text : String) : Nat :=
  ((text.toList.foldl (fun register c => feed register c.val) 0xFFFFFFFF) ^^^ 0xFFFFFFFF).toNat

/-- A number that enters a fingerprint as an integer or as a quotient. -/
inductive Part
  | integer (n : Int)
  | quotient (q : Rat)

/-- The text of a part, where a quotient always shows its denominator. -/
def Part.text : Part → String
  | integer n => toString n
  | quotient q => toString q.num ++ "/" ++ toString q.den

/-- The part that a literal stands for. -/
def Part.ofLiteral : Literal → Result Part
  | .ratio q => .ok (quotient q)
  | l => do return integer (← l.truncated)

/-- The fingerprint of a list of parts. -/
def ofParts (parts : List Part) : Nat := ofText (",".intercalate (parts.map Part.text))

/-- The fingerprint of a list of natural numbers. -/
def ofNumbers (numbers : List Nat) : Nat := ofParts (numbers.map fun (n : Nat) => .integer n)

/-- The number that sets the fingerprints of one operation apart. -/
def salt (op : Opcode) : Nat := ofText op.mnemonic

end Clifford.Checksum
