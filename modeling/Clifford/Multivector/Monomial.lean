import Clifford.Rational.Arithmetic

/-! Monomials: a coefficient times powers of indeterminates, in graded lexicographic order. -/

namespace Clifford

/-- Indeterminates from this id on stand for constants. -/
def constantBase : Nat := 0xFFFFFFFF - 128

/-- The indeterminate that stands for the circle constant. -/
def piId : Nat := constantBase

/-- The indeterminate that stands for the base of natural logarithms. -/
def eId : Nat := constantBase + 1

/-- Whether an indeterminate stands for a constant. -/
def isConstant (id : Nat) : Bool := constantBase ≤ id

/-- An indeterminate raised to a rational degree. -/
structure Power where
  id : Nat
  degree : Rat
deriving DecidableEq

/-- A coefficient times a sequence of powers. -/
structure Monomial where
  coefficient : Rat
  powers : List Power
deriving DecidableEq

/-- The order of two rational numbers. -/
def compareRat (x y : Rat) : Ordering :=
  if x < y then .lt else if x = y then .eq else .gt

namespace Power

/-- Powers are ordered by id and then by degree. -/
def compare (a b : Power) : Ordering :=
  (Ord.compare a.id b.id).then (compareRat a.degree b.degree)

/-- A power of degree one. -/
def linear (id : Nat) : Power := ⟨id, 1⟩

/-- The reciprocal of a power. -/
def inverse (a : Power) : Power := ⟨a.id, -a.degree⟩

end Power

/-- Power sequences are ordered entry by entry, and a proper beginning comes first. -/
def comparePowers : List Power → List Power → Ordering
  | [], [] => .eq
  | [], _ :: _ => .lt
  | _ :: _, [] => .gt
  | a :: as, b :: bs => (Power.compare a b).then (comparePowers as bs)

/-- The sum of the degrees, gated after every addition. -/
def totalDegree (powers : List Power) : Result Rat :=
  powers.foldlM (fun total power => gatedAdd total power.degree) 0

/-- A sort key: the total degree and then the powers themselves. -/
structure MonomialKey where
  degree : Rat
  powers : List Power
deriving DecidableEq

namespace MonomialKey

/-- The key of a power sequence. -/
def ofPowers (powers : List Power) : Result MonomialKey := do
  return ⟨← totalDegree powers, powers⟩

/-- The graded lexicographic order. -/
def compare (a b : MonomialKey) : Ordering :=
  (compareRat a.degree b.degree).then (comparePowers a.powers b.powers)

end MonomialKey

/-- The product of two power sequences that increase by id: degrees of a common id are added, and
an indeterminate of degree zero is dropped. -/
def mulPowers : List Power → List Power → Result (List Power)
  | [], bs => .ok bs
  | as, [] => .ok as
  | a :: as, b :: bs =>
    if a.id < b.id then do return a :: (← mulPowers as (b :: bs))
    else if b.id < a.id then do return b :: (← mulPowers (a :: as) bs)
    else do
      let degree ← gatedAdd a.degree b.degree
      let rest ← mulPowers as bs
      return if degree = 0 then rest else ⟨a.id, degree⟩ :: rest
termination_by as bs => as.length + bs.length

namespace Power

/-- The name of the indeterminate of a power. -/
def base (a : Power) : String :=
  if a.id = piId then "pi" else if a.id = eId then "e" else "x" ++ toString a.id

/-- A power with its degree unless that is one. -/
def display (a : Power) : String :=
  if a.degree = 1 then a.base else a.base ++ "^" ++ ratioText a.degree

end Power

/-- A monomial as a product, where a coefficient of one is left out beside powers. -/
def Monomial.display (m : Monomial) : String :=
  let factors := "*".intercalate (m.powers.map Power.display)
  if m.powers.isEmpty then ratioText m.coefficient
  else if m.coefficient = 1 then factors
  else ratioText m.coefficient ++ "*" ++ factors

end Clifford
