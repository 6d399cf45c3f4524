import Clifford.Multivector.Monomial
import Clifford.Rational.Literal
import Clifford.Text.Numeral

/-! Symbolic multivectors: terms of monomials on basis blades, with a deferred scalar function. -/

namespace Clifford

/-- The monomials on one basis blade. -/
structure Term where
  element : Nat
  monomials : List Monomial
deriving DecidableEq

/-- A sum of terms under a deferred function and the multiplier applied after it. -/
structure Multivector where
  terms : List Term
  op : Deferred := .identity
  opScale : Rat := 1
deriving DecidableEq

/-- A monomial on a basis blade, waiting to be sorted into a multivector. -/
structure Entry where
  element : Nat
  monomial : Monomial
deriving DecidableEq

/-- An entry of a coefficient and its powers. -/
def Entry.of (element : Nat) (coefficient : Rat) (powers : List Power) : Entry :=
  ⟨element, ⟨coefficient, powers⟩⟩

/-- The monomials of a term as entries. -/
def Term.entries (t : Term) : List Entry := t.monomials.map (⟨t.element, ·⟩)

namespace Multivector

/-- The multivector without terms. -/
def zero : Multivector := { terms := [] }

/-- A multiple of a basis blade. -/
def basis (element : Nat) (q : Rat) : Multivector :=
  { terms := if q = 0 then [] else [⟨element, [⟨q, []⟩]⟩] }

/-- A number on the scalar blade. -/
def scalar (q : Rat) : Multivector := basis 0 q

/-- A monomial of one indeterminate on a blade. -/
def indeterminate (id element : Nat) (degree q : Rat) : Result Multivector :=
  if q = 0 then .ok zero
  else do
    let _ ← totalDegree [⟨id, degree⟩]
    return { terms := [⟨element, [⟨q, [⟨id, degree⟩]⟩]⟩] }

/-- A monomial of one indeterminate, whose degree is not looked at for a coefficient of zero. -/
def indeterminateBy (id element : Nat) (degree q : Literal) : Result Multivector := do
  let q ← q.coefficient
  if q = 0 then return zero else indeterminate id element (← degree.coefficient) q

/-- A multiple of a constant on the scalar blade. -/
def constant (id : Nat) (q : Literal) : Result Multivector :=
  if isConstant id then indeterminateBy id 0 (.integer 1) q
  else .error (.violation (.notConstant id))

/-- Terms taken as they are, whether in canonical order or not. -/
def ofTerms (terms : List Term) (op : Deferred) (opScale : Rat) : Result Multivector := do
  terms.forM fun t => t.monomials.forM fun m => discard (totalDegree m.powers)
  return ⟨terms, op, opScale⟩

/-- All monomials with their blades, in storage order. -/
def entries (a : Multivector) : List Entry := a.terms.flatMap Term.entries

/-- The blades of the terms. -/
def elements (a : Multivector) : List Nat := a.terms.map (·.element)

/-- All monomials in storage order. -/
def monomials (a : Multivector) : List Monomial := a.terms.flatMap (·.monomials)

/-- All powers in storage order. -/
def powers (a : Multivector) : List Power := a.monomials.flatMap (·.powers)

/-- Nothing is stored. -/
def isZero (a : Multivector) : Bool := a.terms.isEmpty

/-- No function is deferred. -/
def isPlain (a : Multivector) : Bool := a.op = .identity

/-- The numbers of stored powers, monomials and terms. -/
def size (a : Multivector) : Nat × Nat × Nat :=
  (a.powers.length, a.monomials.length, a.terms.length)

/-- The largest number of powers in a monomial and of monomials in a term, and the terms. -/
def extent (a : Multivector) : Nat × Nat × Nat :=
  ((a.monomials.map (·.powers.length)).foldl max 0,
    (a.terms.map (·.monomials.length)).foldl max 0, a.terms.length)

/-- Inserts a number into an increasing list that does not hold it yet. -/
def insertId (id : Nat) : List Nat → List Nat
  | [] => [id]
  | x :: xs => if id < x then id :: x :: xs else if x < id then x :: insertId id xs else x :: xs

/-- The ids in use, in increasing order. -/
def ids (a : Multivector) : List Nat := (a.powers.map (·.id)).foldr insertId []

/-- The written form of a term. -/
def termDisplay (t : Term) : String :=
  let sum := "(" ++ " + ".intercalate (t.monomials.map Monomial.display) ++ ")"
  if t.element = 0 then sum else sum ++ "*e" ++ Text.binary t.element

/-- The written form of a multivector. -/
def display (a : Multivector) : String :=
  let body := if a.isZero then "0" else " + ".intercalate (a.terms.map termDisplay)
  let deferred :=
    if a.isPlain then body else ratioText a.opScale ++ "*" ++ a.op.name ++ "(" ++ body ++ ")"
  "Multivector(" ++ deferred ++ ")"

end Multivector

end Clifford
