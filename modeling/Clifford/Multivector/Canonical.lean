import Clifford.Multivector.Basic

/-! The canonical form of multivectors: increasing blades, monomials and ids, and nothing zero. -/

namespace Clifford.Multivector

/-- Refuses with a broken precondition unless a condition holds. -/
def ensure (condition : Bool) (cause : Violation) : Result Unit :=
  if condition then .ok () else .error (.violation cause)

/-- The ids of a monomial increase strictly. -/
def increasing : List Nat → Bool
  | x :: y :: rest => x < y && increasing (y :: rest)
  | _ => true

/-- Checks the monomials of a term, each against the key of the one before it. -/
def checkMonomials (name : String) (element : Nat) :
    Option MonomialKey → List Monomial → Result Unit
  | _, [] => .ok ()
  | previous, m :: rest => do
    ensure (m.coefficient ≠ 0) (.zeroCoefficient name element)
    let ids := m.powers.map (·.id)
    ensure (increasing ids) (.indeterminateOrder name ids)
    let key ← MonomialKey.ofPowers m.powers
    let above := match previous with
      | some before => MonomialKey.compare before key = .lt
      | none => true
    ensure above (.monomialOrder name element)
    checkMonomials name element (some key) rest

/-- Checks the terms, each against the blade of the one before it. -/
def checkTerms (name : String) : Int → List Term → Result Unit
  | _, [] => .ok ()
  | previous, t :: rest => do
    ensure (previous < t.element) (.termOrder name previous t.element)
    ensure (!t.monomials.isEmpty) (.emptyTerm name t.element)
    checkMonomials name t.element none t.monomials
    checkTerms name t.element rest

/-- Passes exactly the multivectors in canonical form, or all of them without validation. -/
def checkCanonical (a : Multivector) (name : String) (validate : Bool := true) : Result Unit :=
  if validate then checkTerms name (-1) a.terms else .ok ()

end Clifford.Multivector
