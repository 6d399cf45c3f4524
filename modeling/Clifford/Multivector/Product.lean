import Clifford.Metric.BladeProduct
import Clifford.Multivector.Arithmetic
import Clifford.Multivector.Frame

/-! Products of multivectors: all pairs of terms are multiplied, and the results are collated. -/

namespace Clifford

/-- All products of the monomials of two terms on a given blade with a given sign. -/
def distribute (ms ns : List Monomial) (element : Nat) (sign : Int) : Result (List Entry) := do
  let rows ← ms.mapM fun a => ns.mapM fun b => do
    let q ← gatedMul a.coefficient b.coefficient
    let powers ← mulPowers a.powers b.powers
    return Entry.of element (if sign < 0 then -q else q) powers
  return rows.flatten

namespace BladeProduct

/-- The product of two terms whose blades are looked up directly. -/
def directPair (kind : BladeProduct) (m : Metric) (s t : Term) : Result (List Entry) := do
  let (element, sign) ← kind.entry m s.element t.element
  if sign = 0 then return [] else distribute s.monomials t.monomials element sign

/-- The product over an orthogonal basis. -/
def directProduct (kind : BladeProduct) (m : Metric) (ss ts : List Term) : Result Multivector := do
  let rows ← ss.mapM fun s => ts.mapM fun t => kind.directPair m s t
  collate (rows.map List.flatten).flatten

/-- The product of two terms that both touch the pair, taken over the orthogonal basis. -/
def framedPair (kind : BladeProduct) (m : Metric) (s t : Term) : Result (List Entry) := do
  let left ← m.diagonalize { terms := [s] }
  let right ← m.diagonalize { terms := [t] }
  let product ← kind.directProduct m left.terms right.terms
  return (← m.undiagonalize product).entries

/-- The product of two terms, where only pairs that both touch the marked vectors change basis. -/
def termPair (kind : BladeProduct) (m : Metric) (s t : Term) : Result (List Entry) :=
  if kind.usesMetric && m.touches s.element && m.touches t.element then kind.framedPair m s t
  else kind.directPair m s t

/-- The bilinear product of two plain multivectors. -/
def product (kind : BladeProduct) (m : Metric) (a b : Multivector) : Result Multivector := do
  Multivector.requirePlain a
  Multivector.requirePlain b
  let rows ← a.terms.mapM fun s => b.terms.mapM fun t => kind.termPair m s t
  collate (rows.map List.flatten).flatten

end BladeProduct

/-- The regressive product: the dual of the exterior product of the duals. -/
def Multivector.regressive (m : Metric) (a b : Multivector) : Result Multivector := do
  let left ← a.dual m.n
  let right ← b.dual m.n
  (← BladeProduct.exterior.product m left right).dual m.n

end Clifford
