import Clifford.Error

/-! Floating point formats, and the functions on their numbers that evaluation is built from. -/

namespace Clifford

/-- The formats that plans are evaluated in. -/
inductive Precision
  | single
  | double
deriving DecidableEq, Repr

namespace Precision

/-- Every format, the narrow one first. -/
def all : List Precision := [single, double]

/-- The written name of a format. -/
def name : Precision → String
  | single => "float32"
  | double => "float64"

/-- The format of a written name. -/
def ofName? (text : String) : Option Precision := all.find? (·.name = text)

/-- The format of a written name, which has to be known. -/
def ofText (text : String) : Result Precision :=
  match ofName? text with
  | some p => .ok p
  | none => .error (.unknownPrecision text)

end Precision

/-- Numbers with the arithmetic and the elementary functions of a floating point format. -/
class Elementary (α : Type) extends Zero α, Add α, Sub α, Mul α, Div α, Neg α where
  ofDouble : Float → α
  widen : α → Float
  lt : α → α → Bool
  le : α → α → Bool
  magnitude : α → α
  sqrt : α → α
  sin : α → α
  cos : α → α
  tan : α → α
  sinh : α → α
  cosh : α → α
  atanh : α → α
  atan2 : α → α → α
  pow : α → α → α
  /-- The root of the distance from one to the next number. -/
  tolerance : α

instance : Elementary Float where
  zero := 0
  ofDouble x := x
  widen x := x
  lt x y := x < y
  le x y := x ≤ y
  magnitude := Float.abs
  sqrt := Float.sqrt
  sin := Float.sin
  cos := Float.cos
  tan := Float.tan
  sinh := Float.sinh
  cosh := Float.cosh
  atanh := Float.atanh
  atan2 := Float.atan2
  pow := Float.pow
  tolerance := Float.sqrt (Float.scaleB 1 (-52))

instance : Elementary Float32 where
  zero := 0
  ofDouble := Float.toFloat32
  widen := Float32.toFloat
  lt x y := x < y
  le x y := x ≤ y
  magnitude := Float32.abs
  sqrt := Float32.sqrt
  sin := Float32.sin
  cos := Float32.cos
  tan := Float32.tan
  sinh := Float32.sinh
  cosh := Float32.cosh
  atanh := Float32.atanh
  atan2 := Float32.atan2
  pow := Float32.pow
  tolerance := (Float.sqrt (Float.scaleB 1 (-23))).toFloat32

namespace Elementary

variable {α : Type} [Elementary α]

/-- The number one. -/
def one : α := ofDouble 1

/-- Whether a number is undefined, which is when it is not equal to itself. -/
def isUndefined (x : α) : Bool := !le x x

/-- The larger of two numbers, and an undefined one before any other. -/
def larger (x y : α) : α :=
  if isUndefined x then x else if isUndefined y then y else if lt x y then y else x

/-- The smaller of two numbers, and an undefined one before any other. -/
def smaller (x y : α) : α :=
  if isUndefined x then x else if isUndefined y then y else if lt y x then y else x

end Elementary

/-- The sum of numbers from the left. -/
def total {α : Type} [Zero α] [Add α] (xs : List α) : α := xs.foldl (· + ·) 0

end Clifford
