import Clifford.Multivector.Basic

/-! The flat layout of a multivector: all powers, monomials and terms, each addressing a range. -/

namespace Clifford

/-- A monomial whose powers are the given range of all powers. -/
structure MonomialSlot where
  coefficient : Rat
  degree : Rat
  count : Nat
  offset : Nat

/-- A term whose monomials are the given range of all monomials. -/
structure TermSlot where
  element : Nat
  count : Nat
  offset : Nat

/-- Three sequences, where monomials address powers and terms address monomials. -/
structure Arena where
  powers : List Power
  monomials : List MonomialSlot
  terms : List TermSlot

namespace Arena

/-- The slots of monomials whose powers start at an offset. -/
def monomialSlots (offset : Nat) : List Monomial → Result (List MonomialSlot)
  | [] => .ok []
  | m :: rest => do
    let slot : MonomialSlot := ⟨m.coefficient, ← totalDegree m.powers, m.powers.length, offset⟩
    return slot :: (← monomialSlots (offset + m.powers.length) rest)

/-- The slots of terms whose monomials start at an offset. -/
def termSlots (offset : Nat) : List Term → List TermSlot
  | [] => []
  | t :: rest =>
    ⟨t.element, t.monomials.length, offset⟩ :: termSlots (offset + t.monomials.length) rest

end Arena

/-- The flat layout of a multivector. -/
def Multivector.arena (a : Multivector) : Result Arena := do
  return ⟨a.powers, ← Arena.monomialSlots 0 a.monomials, Arena.termSlots 0 a.terms⟩

end Clifford
