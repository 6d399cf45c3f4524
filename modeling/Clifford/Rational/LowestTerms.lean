import Clifford.Rational.Literal

/-! Coefficients as they are stored, which is two integers in lowest terms, and the arithmetic on
their numerators and denominators. -/

namespace Clifford

/-- A numerator over a positive denominator that it has no factor in common with. -/
@[ext]
structure LowestTerms where
  num : Int
  den : Int
  positive : 0 < den
  reduced : Int.gcd num den = 1
deriving DecidableEq

namespace LowestTerms

/-- The number that two integers stand for. -/
def value (x : LowestTerms) : Rat := Rat.divInt x.num x.den

/-- A number in lowest terms. -/
def ofRat (q : Rat) : LowestTerms :=
  ⟨q.num, q.den, Int.natCast_pos.mpr q.den_pos, q.reduced⟩

/-- The number that a literal stands for in lowest terms. -/
def ofLiteral (l : Literal) : Result LowestTerms := do
  return ofRat (← l.operand)

/-- Divides a common factor out of a numerator and a positive denominator. -/
def reduce (num den : Int) (positive : 0 < den) : LowestTerms :=
  let g : Nat := Int.gcd num den
  if common : 1 < g then
    have divides : (g : Int) ∣ den := Int.gcd_dvd_right num den
    ⟨num / g, den / g, Int.ediv_pos_of_pos_of_dvd positive (Int.natCast_nonneg g) divides,
      Int.gcd_ediv_gcd_ediv_gcd (Nat.zero_lt_of_lt common)⟩
  else
    have one : Int.gcd num den = 1 :=
      Nat.le_antisymm (Nat.not_lt.mp common) (Int.gcd_pos_of_ne_zero_right num (Int.ne_of_gt positive))
    ⟨num, den, positive, one⟩

/-- A numerator over a denominator, of which a negative one gives its sign away. -/
def ofInts (num den : Int) : Result LowestTerms :=
  if zero : den = 0 then .error .zeroDenominator
  else if negative : den < 0 then .ok (reduce (-num) (-den) (by omega))
  else .ok (reduce num den (by omega))

/-- A quotient that passes the overflow gate where its denominator reaches the threshold. -/
def gatedPositive (num den : Int) : Result LowestTerms :=
  -- The test is made before a common factor is divided out, so it can hold for a small quotient.
  if gateThreshold ≤ den then do
    let (n, d) ← gateFraction num den
    ofInts n d
  else ofInts num den

/-- A quotient that passes the overflow gate, where a negative denominator gives its sign away. -/
def gated (num den : Int) : Result LowestTerms :=
  if den < 0 then gatedPositive (-num) (-den) else gatedPositive num den

/-- The sum, which needs no common denominator where the denominators are equal. -/
def add (x y : LowestTerms) : Result LowestTerms :=
  if x.den = y.den then gated (x.num + y.num) x.den
  else gated (x.num * y.den + y.num * x.den) (x.den * y.den)

/-- The opposite number. -/
def neg (x : LowestTerms) : LowestTerms := reduce (-x.num) x.den x.positive

/-- The difference, which is the sum with the opposite number. -/
def sub (x y : LowestTerms) : Result LowestTerms := x.add y.neg

/-- The product. -/
def mul (x y : LowestTerms) : Result LowestTerms := gated (x.num * y.num) (x.den * y.den)

/-- The quotient by a number other than zero. -/
def div (x y : LowestTerms) : Result LowestTerms :=
  if y.num = 0 then .error .zeroDivisor else gated (x.num * y.den) (x.den * y.num)

/-- Equal numbers have equal numerators and equal denominators. -/
def eq (x y : LowestTerms) : Bool := x.num = y.num && x.den = y.den

/-- A literal is equal to a number if it has an exact value, and that is the number. -/
def eqLiteral (x : LowestTerms) (l : Literal) : Bool := l.exactValue?.any fun y => x.eq (ofRat y)

/-- Numbers are compared over a common denominator. -/
def lt (x y : LowestTerms) : Bool := x.num * y.den < y.num * x.den

/-- The smaller number or an equal one. -/
def le (x y : LowestTerms) : Bool := x.lt y || x.eq y

/-- Neither the smaller number nor an equal one. -/
def gt (x y : LowestTerms) : Bool := !x.lt y && !x.eq y

/-- Not the smaller number. -/
def ge (x y : LowestTerms) : Bool := !x.lt y

end LowestTerms

/-- The operators of the arithmetic of coefficients. -/
inductive CoefficientOperator
  | add
  | sub
  | mul
  | div
deriving DecidableEq, Repr

/-- An operator on two coefficients. -/
def CoefficientOperator.apply : CoefficientOperator → LowestTerms → LowestTerms → Result LowestTerms
  | add => LowestTerms.add
  | sub => LowestTerms.sub
  | mul => LowestTerms.mul
  | div => LowestTerms.div

namespace LowestTerms

/-- An operator with a literal to the right of a coefficient. -/
def withRight (x : LowestTerms) (op : CoefficientOperator) (l : Literal) : Result LowestTerms := do
  op.apply x (← ofLiteral l)

/-- An operator with a literal to the left of a coefficient. -/
def withLeft (x : LowestTerms) (op : CoefficientOperator) (l : Literal) : Result LowestTerms := do
  let y ← ofLiteral l
  -- Sums and products do not depend on the side, and take the coefficient first.
  match op with
  | .add => x.add y
  | .sub => y.add x.neg
  | .mul => x.mul y
  | .div => y.div x

end LowestTerms

end Clifford
