import Clifford.Deferred
import Clifford.Opcode
import Clifford.Text.Numeral

/-! The causes of failure of every operation, and the text of each. -/

namespace Clifford

/-- An operator was applied outside the domain it is defined on. -/
inductive DomainError
  | shiftDeferred (fn : Deferred)
  | nestDeferred (outer inner : Deferred)
  | notScalar (fn : Deferred) (elements : List Nat)
  | notMaterialized (fn : Deferred)
  | notScalarMonomial (divisor : String)
  | manyIndeterminates (count : Nat)
  | notNumeric
  | degeneratePseudoscalar
  | noPolynomialForm (op : Opcode)
  | deferredArgument (op : Opcode)
  | expElements (elements : List Nat)
  | logZero
  | logElements (elements : List Nat)
  | notSimple (op : Opcode)
  | expStray
  | logStray
  | logNonPositive
  | logBoost
deriving DecidableEq, Repr

/-- The text of a domain error. -/
def DomainError.message : DomainError → String
  | shiftDeferred fn => "cannot shift a deferred " ++ fn.name
  | nestDeferred outer inner =>
    "cannot nest " ++ outer.name ++ " inside " ++ inner.name ++ " without materializing"
  | notScalar fn elements => fn.name ++ " requires a scalar, got elements " ++ Text.tuple elements
  | notMaterialized fn => fn.name ++ " must be materialized before it is combined"
  | notScalarMonomial divisor => "divisor must be a single scalar monomial, got " ++ divisor
  | manyIndeterminates count =>
    "divisor monomial must hold at most one indeterminate, got " ++ toString count
  | notNumeric => "multivector is not numeric"
  | degeneratePseudoscalar => "a degenerate pseudoscalar has no inverse"
  | noPolynomialForm op => op.name ++ " has no polynomial form; compile the formula instead"
  | deferredArgument op => op.name ++ " of a deferred transcendental"
  | expElements elements =>
    "exp is defined only on bivectors, got elements " ++ Text.tuple elements
  | logZero => "log of zero"
  | logElements elements => "log is defined only on even elements, got " ++ Text.tuple elements
  | notSimple op => op.name ++ " requires a simple bivector (B^2 must be scalar)"
  | expStray => "exp is defined only on bivectors"
  | logStray => "log is defined only on scalar plus bivector rotors"
  | logNonPositive => "log has no real value for a non-positive scalar part"
  | logBoost => "log of a boost requires |B| < s"

/-- What a tensor's last dimension counts. -/
inductive TrailingSize
  | entityFields
  | algebraDimension
deriving DecidableEq, Repr

/-- The words for what a tensor's last dimension counts. -/
def TrailingSize.words : TrailingSize → String
  | entityFields => "entity fields"
  | algebraDimension => "algebra dim"

/-- A caller broke a stated precondition. -/
inductive Violation
  | negativeCount (axis : String) (value : Int)
  | tooManyDimensions (count : Nat)
  | pairTooSmall
  | nullPairSignature
  | nullPairPositive
  | signatureMismatch (metric : List Int) (algebra : List Int)
  | basisVectorRange (index : Int) (dimension : Nat)
  | coordinateCount (dimension : Nat)
  | notConstant (id : Nat)
  | termOrder (name : String) (previous : Int) (element : Nat)
  | emptyTerm (name : String) (element : Nat)
  | zeroCoefficient (name : String) (element : Nat)
  | indeterminateOrder (name : String) (ids : List Nat)
  | monomialOrder (name : String) (element : Nat)
  | arity (op : Opcode) (family : String)
  | stackSize (found expected : Nat)
  | inputFields (found expected : Nat)
  | tensorRank (name : String) (shape : List Nat)
  | tensorSize (name : String) (expected : Nat) (what : TrailingSize) (shape : List Nat)
  | fieldCount (name : String) (fields elements : Nat)
  | mixedFields
deriving DecidableEq, Repr

/-- A signature as a tuple. -/
def Violation.signature (counts : List Int) : String :=
  "(" ++ ", ".intercalate (counts.map toString) ++ ")"

/-- The text of a broken precondition. -/
def Violation.message : Violation → String
  | negativeCount axis value => axis ++ " must be non-negative, got " ++ toString value
  | tooManyDimensions count => "p + q + r must be <= 12, got " ++ toString count
  | pairTooSmall => "a null pair needs at least two basis vectors"
  | nullPairSignature => "the null pair is built from the last e+ and a single e-"
  | nullPairPositive => "the null pair needs a positive vector"
  | signatureMismatch metric algebra =>
    "metric signature " ++ signature metric ++ " does not match " ++ signature algebra
  | basisVectorRange index dimension =>
    "basis vector " ++ toString index ++ " out of range for n=" ++ toString dimension
  | coordinateCount dimension => "expected " ++ toString dimension ++ " coordinates"
  | notConstant id => Text.hex id ++ " is not a constant id"
  | termOrder name previous element =>
    name ++ ": terms out of order (" ++ toString previous ++ " before " ++ toString element ++ ")"
  | emptyTerm name element => name ++ ": empty term on element " ++ toString element
  | zeroCoefficient name element =>
    name ++ ": zero coefficient on element " ++ toString element
  | indeterminateOrder name ids =>
    name ++ ": indeterminates not strictly increasing: " ++ Text.bracketed (ids.map toString)
  | monomialOrder name element =>
    name ++ ": monomials out of graded-lex order on element " ++ toString element
  | arity op family => op.display ++ " is not " ++ family
  | stackSize found expected =>
    "stack holds " ++ toString found ++ " values for " ++ toString expected ++ " outputs"
  | inputFields found expected =>
    "inputs provide " ++ toString found ++ " fields, plan expects " ++ toString expected
  | tensorRank name shape => name ++ ": expected ndim >= 1, got shape " ++ Text.tuple shape
  | tensorSize name expected what shape =>
    name ++ ": last dim should be " ++ toString expected ++ " (" ++ what.words ++ "), got "
      ++ toString (shape.getLastD 0) ++ " (shape " ++ Text.tuple shape ++ ")"
  | fieldCount name fields elements =>
    name ++ ": " ++ toString fields ++ " fields for " ++ toString elements ++ " elements"
  | mixedFields => "pass fields either positionally or by name"

/-- Everything that can go wrong. -/
inductive Error
  | zeroDenominator
  | zeroDivisor
  | zeroReciprocal
  | zeroFraction
  | divisionByZero
  | quotientOverflow
  | formatOverflow
  | notInvertible
  | notInteger
  | notExact (kind : String)
  | notExpression (kind : String)
  | notLowerable (kind : String)
  | notReducible (kind : String)
  | unsupportedOperand
  | emptyFold
  | indexRange
  | negativeIndex
  | unknownName
  | unavailable
  | raggedTensor
  | shapeMismatch
  | emptyTensor
  | unknownPrecision (name : String)
  | unknownFormula (name : String) (available : List String)
  | unknownTask (name : String) (available : List String)
  | unknownLevel (text : String)
  | domain (cause : DomainError)
  | violation (cause : Violation)
deriving DecidableEq, Repr

/-- A list of names in quotes and brackets. -/
def Error.quotedNames (names : List String) : String :=
  Text.bracketed (names.map fun name => "'" ++ name ++ "'")

/-- The text of an error. -/
def Error.message : Error → String
  | zeroDenominator => "Rational with zero denominator"
  | zeroDivisor => "Rational division by zero"
  | zeroReciprocal => "Reciprocal of zero"
  | zeroFraction => "a fraction has no denominator of zero"
  | divisionByZero => "divisor reduces to zero"
  | quotientOverflow => "the quotient exceeds the range of a double"
  | formatOverflow => "the number exceeds the range of its format"
  | notInvertible => "the number has no inverse for this modulus"
  | notInteger => "the value is no integer"
  | notExact kind => "Expected an exact rational (int, Fraction, Rational), got " ++ kind
  | notExpression kind =>
    "Cannot use " ++ kind ++ " in an expression; numbers must be exact (int, Fraction, Rational)"
  | notLowerable kind => "Cannot lower " ++ kind
  | notReducible kind => "Cannot reduce " ++ kind
  | unsupportedOperand => "the operator has no meaning for these operands"
  | emptyFold => "an operation over no operands has no value"
  | indexRange => "the position lies outside the sequence"
  | negativeIndex => "the index must not be negative"
  | unknownName => "the name or id is not known"
  | unavailable => "the algebra does not offer this operation"
  | raggedTensor => "the rows of the tensor differ in length"
  | shapeMismatch => "the shapes do not broadcast"
  | emptyTensor => "the tensor holds no value"
  | unknownPrecision name =>
    "Unknown dtype: " ++ name ++ ". Available: " ++ quotedNames ["float32", "float64"]
  | unknownFormula name available =>
    "Unknown formula: " ++ name ++ ". Available: " ++ quotedNames available
  | unknownTask name available =>
    "Unknown task: " ++ name ++ ". Available: " ++ quotedNames available
  | unknownLevel text => "Unknown level: '" ++ text ++ "'"
  | domain cause => cause.message
  | violation cause => cause.message

/-- The result of an operation that can fail. -/
abbrev Result := Except Error

end Clifford
