import Clifford.Multivector.Collate
import Clifford.Position
import Clifford.Rational.Literal

/-! Arithmetic of multivectors that does not depend on a metric. -/

namespace Clifford.Multivector

/-- Refuses a multivector with a deferred function. -/
def requirePlain (a : Multivector) : Result Unit :=
  if a.isPlain then .ok () else .error (.domain (.notMaterialized a.op))

/-- Multiplies every coefficient of a list of monomials. -/
def scaleMonomials (q : Rat) (ms : List Monomial) : Result (List Monomial) :=
  ms.mapM fun m => do return { m with coefficient := ← gatedMul m.coefficient q }

/-- A multiple of a multivector, which scales the result of a deferred function. -/
def scale (a : Multivector) (q : Rat) : Result Multivector :=
  if q = 1 then .ok a
  else if q = 0 then .ok zero
  else if a.isPlain then do
    return { terms := ← a.terms.mapM fun t => do
      return { t with monomials := ← scaleMonomials q t.monomials } }
  else do return { a with opScale := ← gatedMul a.opScale q }

/-- The negative of a multivector. -/
def negate (a : Multivector) : Result Multivector := a.scale (-1)

/-- Refuses to add a number under a deferred function. -/
def requireShiftable (a : Multivector) : Result Unit :=
  if a.isPlain then .ok () else .error (.domain (.shiftDeferred a.op))

/-- Adds a number to a plain multivector. -/
def shift (a : Multivector) (q : Rat) : Result Multivector := do
  requireShiftable a
  if q = 0 then return a else collate (a.entries ++ [Entry.of 0 q []])

/-- Adds a literal, which is not looked at under a deferred function. -/
def shiftBy (a : Multivector) (l : Literal) : Result Multivector := do
  requireShiftable a
  a.shift (← l.coefficient)

/-- Defers a function of a scalar multivector, where the function of zero is known exactly. -/
def withOp (a : Multivector) (op : Deferred) : Result Multivector :=
  if !a.isPlain then .error (.domain (.nestDeferred op a.op))
  else if 1 < a.terms.length || a.terms.any (·.element ≠ 0) then
    .error (.domain (.notScalar op a.elements))
  else if a.isZero then .ok (if op = .cos then scalar 1 else zero)
  else .ok { terms := a.terms, op := op }

/-- A scaled copy of a term on another blade, or nothing for a scale of zero. -/
def copyTerm (t : Term) (q : Rat) (element : Nat) : Result (List Term) :=
  if q = 0 then .ok [] else do return [⟨element, ← scaleMonomials q t.monomials⟩]

/-- Appends a scaled copy of a term of another multivector on a given blade. -/
def push (target source : Multivector) (position : Int) (q : Rat) (element : Nat) :
    Result Multivector :=
  if q = 0 then .ok target
  else match entryAt? source.terms position with
    | some t => do return { target with terms := target.terms ++ (← copyTerm t q element) }
    | none => .error .indexRange

/-- The first position from `lo` on that a binary search below `hi` leaves for an element. -/
def searchFrom (elements : Array Nat) (element lo hi : Nat) : Nat :=
  if open_ : lo < hi then
    let mid := (lo + hi) / 2
    if elements.getD mid 0 < element then searchFrom elements element (mid + 1) hi
    else searchFrom elements element lo mid
  else lo
termination_by hi - lo

/-- The part of a multivector on one blade, with a deferred function kept. -/
def extract (a : Multivector) (element : Nat) : Result Multivector := do
  let found := a.terms[searchFrom a.elements.toArray element 0 a.terms.length]?
  match found with
  | some t =>
    if t.element = element then return { a with terms := ← copyTerm t 1 element }
    else return { a with terms := [] }
  | none => return { a with terms := [] }

/-- The terms of one grade, with a deferred function kept. -/
def selectGrade (a : Multivector) (grade : Int) : Result Multivector := do
  let chosen := a.terms.filter fun t => (Blade.grade t.element : Int) = grade
  return { a with terms := (← chosen.mapM fun t => copyTerm t 1 t.element).flatten }

/-- Merges two sorted lists of monomials, where exact opposites cancel. -/
def mergeMonomials : List Monomial → List Monomial → Result (List Monomial)
  | [], bs => .ok bs
  | as, [] => .ok as
  | a :: as, b :: bs => do
    let order := MonomialKey.compare (← MonomialKey.ofPowers a.powers)
      (← MonomialKey.ofPowers b.powers)
    match order with
    | .lt => return a :: (← mergeMonomials as (b :: bs))
    | .gt => return b :: (← mergeMonomials (a :: as) bs)
    | .eq =>
      let q ← gatedAdd a.coefficient b.coefficient
      let rest ← mergeMonomials as bs
      return if q = 0 then rest else ⟨q, a.powers⟩ :: rest
termination_by as bs => as.length + bs.length

/-- Merges two sorted lists of terms. -/
def mergeTerms : List Term → List Term → Result (List Term)
  | [], ts => .ok ts
  | ss, [] => .ok ss
  | s :: ss, t :: ts =>
    if s.element < t.element then do return s :: (← mergeTerms ss (t :: ts))
    else if t.element < s.element then do return t :: (← mergeTerms (s :: ss) ts)
    else do
      let merged ← mergeMonomials s.monomials t.monomials
      let rest ← mergeTerms ss ts
      return if merged.isEmpty then rest else ⟨s.element, merged⟩ :: rest
termination_by ss ts => ss.length + ts.length

/-- The sum of two plain multivectors. -/
def add (a b : Multivector) : Result Multivector := do
  requirePlain a
  requirePlain b
  return { terms := ← mergeTerms a.terms b.terms }

/-- The difference of two multivectors. -/
def sub (a b : Multivector) : Result Multivector := do add a (← negate b)

/-- Changes the sign of every coefficient. -/
def oppositeMonomials (ms : List Monomial) : List Monomial :=
  ms.map fun m => { m with coefficient := -m.coefficient }

/-- Reverses the factors of every blade. -/
def reverse (a : Multivector) : Result Multivector := do
  requirePlain a
  return { terms := a.terms.map fun t =>
    if Blade.reversionSign t.element < 0 then ⟨t.element, oppositeMonomials t.monomials⟩ else t }

/-- Maps every blade to its signed complement in `n` dimensions. -/
def dual (a : Multivector) (n : Nat) : Result Multivector := do
  requirePlain a
  collate (a.entries.map fun e =>
    let (element, sign) := Blade.complement e.element n
    Entry.of element (if 0 < sign then e.monomial.coefficient else -e.monomial.coefficient)
      e.monomial.powers)

/-- The only monomial of a divisor, which has to be scalar. -/
def divisorMonomial (b : Multivector) : Result Monomial :=
  match b.terms with
  | [] => .error .divisionByZero
  | [⟨0, [m]⟩] => .ok m
  | _ => .error (.domain (.notScalarMonomial b.display))

/-- Divides by a scalar monomial with at most one indeterminate. -/
def divide (a b : Multivector) : Result Multivector := do
  requirePlain a
  requirePlain b
  let m ← divisorMonomial b
  if 1 < m.powers.length then throw (.domain (.manyIndeterminates m.powers.length))
  let q ← reciprocal m.coefficient
  let powers := m.powers.map Power.inverse
  let quotients ← a.entries.mapM fun e => do
    return Entry.of e.element (← gatedMul e.monomial.coefficient q)
      (← mulPowers e.monomial.powers powers)
  collate quotients

/-- Inserts a coefficient into an association list, where a later one replaces an earlier one. -/
def insertCoefficient (element : Nat) (q : Rat) : List (Nat × Rat) → List (Nat × Rat)
  | [] => [(element, q)]
  | (e, r) :: rest =>
    if element < e then (element, q) :: (e, r) :: rest
    else if e < element then (e, r) :: insertCoefficient element q rest
    else (element, q) :: rest

/-- The coefficient of every stored blade of a multivector without indeterminates. -/
def denseCoefficients (a : Multivector) : Result (List (Nat × Rat)) :=
  a.entries.foldlM (fun found e =>
    if e.monomial.powers.isEmpty then
      .ok (insertCoefficient e.element e.monomial.coefficient found)
    else .error (.domain .notNumeric)) []

end Clifford.Multivector
