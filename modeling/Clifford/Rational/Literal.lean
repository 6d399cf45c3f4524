import Clifford.Rational.Arithmetic

/-! Numbers as they are written in formulas: exact ones are coefficients, all others are refused. -/

namespace Clifford

/-- A value offered where a number is expected, with the form it is written in. -/
inductive Literal
  | integer (n : Int)
  | ratio (q : Rat)
  | fraction (q : Rat)
  | truth (b : Bool)
  | binary (x : Float)
  | text (s : String)
  | nothing
  | list

namespace Literal

/-- A fraction of two integers. -/
def ofFraction (num den : Int) : Result Literal :=
  if den = 0 then .error .zeroFraction else .ok (fraction (Rat.divInt num den))

/-- The name of a literal's form. -/
def kind : Literal → String
  | integer _ => "int"
  | ratio _ => "Rational"
  | fraction _ => "Fraction"
  | truth _ => "bool"
  | binary _ => "float"
  | text _ => "str"
  | nothing => "NoneType"
  | list => "list"

/-- The exact value of a literal that has one. -/
def exactValue? : Literal → Option Rat
  | integer n => some n
  | ratio q => some q
  | fraction q => some q
  | truth b => some (if b then 1 else 0)
  | _ => none

/-- The coefficient that a literal stands for. -/
def coefficient (l : Literal) : Result Rat :=
  match l.exactValue? with
  | some q => .ok q
  | none => .error (.notExact l.kind)

/-- The coefficient that an operand stands for, where another kind of operand has no meaning. -/
def operand (l : Literal) : Result Rat :=
  match l.exactValue? with
  | some q => .ok q
  | none => .error .unsupportedOperand

/-- The coefficient that a literal stands for in a formula, where truth values are refused. -/
def scalar? : Literal → Option Rat
  | truth _ => none
  | l => l.exactValue?

/-- A number as it is displayed, and the name of the form of any other literal. -/
def display : Literal → String
  | integer n => toString n
  | ratio q => ratioDisplay "Rational" q
  | fraction q => ratioDisplay "Fraction" q
  | l => l.kind

/-- The integer part of a literal. -/
def truncated : Literal → Result Int
  | integer n => .ok n
  | truth b => .ok (if b then 1 else 0)
  | ratio q => .ok (Int.tdiv q.num q.den)
  | fraction q => .ok (Int.tdiv q.num q.den)
  | binary x =>
    match Binary64.decode x.toBits with
    | some q => .ok (Int.tdiv q.num q.den)
    | none => if x.isNaN then .error .notInteger else .error .quotientOverflow
  | text s => match Text.integer? s with
    | some n => .ok n
    | none => .error .notInteger
  | _ => .error .unsupportedOperand

/-- Whether a coefficient and a literal fall into the same hash class. -/
def sameResidue (x : Rat) : Literal → Result Bool
  | binary y =>
    match Binary64.decode y.toBits with
    | some q => .ok (residue x = residue q)
    | none =>
      if y.isNaN then .ok false
      else .ok (residue x = if y < 0 then -314159 else 314159)
  | list => .error .unsupportedOperand
  | l => .ok (match l.exactValue? with
    | some q => residue x = residue q
    | none => false)

end Literal

end Clifford
