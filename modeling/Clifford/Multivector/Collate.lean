import Clifford.Blade
import Clifford.Multivector.Basic

/-! Sorting and merging of entries into canonical multivectors. -/

namespace Clifford

/-- An entry with its place in the canonical order. -/
structure KeyedEntry where
  element : Nat
  key : MonomialKey
  coefficient : Rat
deriving DecidableEq

namespace KeyedEntry

/-- The place of an entry. -/
def ofEntry (e : Entry) : Result KeyedEntry := do
  return ⟨e.element, ← MonomialKey.ofPowers e.monomial.powers, e.monomial.coefficient⟩

/-- Entries are ordered by blade and then by monomial. -/
def compare (a b : KeyedEntry) : Ordering :=
  (Ord.compare a.element b.element).then (MonomialKey.compare a.key b.key)

/-- Entries that differ at most in their coefficients. -/
def alike (a b : KeyedEntry) : Bool := a.element = b.element && a.key = b.key

/-- The monomial of an entry. -/
def monomial (e : KeyedEntry) : Monomial := ⟨e.coefficient, e.key.powers⟩

/-- Adds up every run of alike entries, starting from the run of the first argument. -/
def sumRuns (current : KeyedEntry) : List KeyedEntry → Result (List KeyedEntry)
  | [] => .ok [current]
  | e :: rest =>
    if alike current e then do
      let total ← gatedAdd current.coefficient e.coefficient
      sumRuns { current with coefficient := total } rest
    else do return current :: (← sumRuns e rest)

/-- Adds up every run of alike entries and drops those that vanish. -/
def merge : List KeyedEntry → Result (List KeyedEntry)
  | [] => .ok []
  | e :: rest => do return (← sumRuns e rest).filter fun e => e.coefficient ≠ 0

/-- Gathers neighbours on the same blade into one term. -/
def group : List KeyedEntry → List Term
  | [] => []
  | e :: rest =>
    match group rest with
    | t :: ts =>
      if t.element = e.element then ⟨t.element, e.monomial :: t.monomials⟩ :: ts
      else ⟨e.element, [e.monomial]⟩ :: t :: ts
    | [] => [⟨e.element, [e.monomial]⟩]

end KeyedEntry

/-- The canonical terms of a list of entries in any order: entries alike up to the coefficient
are summed, zero sums are dropped, and so are blades left without monomials. -/
def collateTerms (entries : List Entry) : Result (List Term) := do
  let keyed ← entries.mapM KeyedEntry.ofEntry
  let sorted := keyed.mergeSort fun a b => (KeyedEntry.compare a b).isLE
  return KeyedEntry.group (← KeyedEntry.merge sorted)

/-- The canonical multivector of a list of entries. -/
def collate (entries : List Entry) (op : Deferred := .identity) (opScale : Rat := 1) :
    Result Multivector := do
  return ⟨← collateTerms entries, op, opScale⟩

namespace Multivector

/-- A fresh indeterminate on each of the given blades, with consecutive ids. -/
def ofElements (id : Nat) (elements : List Nat) : Result Multivector :=
  collate (elements.mapIdx fun k element => Entry.of element 1 [Power.linear (id + k)])

/-- Fresh indeterminates on every blade of even grade. -/
def even (dim id : Nat) : Result Multivector :=
  ofElements id ((List.range dim).filter fun e => Blade.grade e % 2 = 0)

/-- Fresh indeterminates on every blade of grade two. -/
def bivector (dim id : Nat) : Result Multivector :=
  ofElements id ((List.range dim).filter fun e => Blade.grade e = 2)

/-- A fresh indeterminate for each term, on the blade of that term. -/
def reference (a : Multivector) (id : Nat) : Result Multivector := ofElements id a.elements

end Multivector

end Clifford
