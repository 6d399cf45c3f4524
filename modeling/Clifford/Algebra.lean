import Clifford.Multivector.Product

/-! Clifford algebras: the operators bound to one metric, and the conformal algebras among them. -/

namespace Clifford

/-- A metric, with the dimension of the Euclidean space that a conformal algebra embeds. -/
structure Algebra where
  metric : Metric
  euclidean : Option Nat := none

namespace Algebra

/-- The algebra of three counts, over the diagonal metric or over one of that signature. -/
def clifford (p q r : Int) (metric : Option Metric) : Result Algebra := do
  let m ← match metric with
    | some m => pure m
    | none => Metric.ofDiagonal p q r
  if m.signature.counts = [p, q, r] then return { metric := m }
  else throw (.violation (.signatureMismatch m.signature.counts [p, q, r]))

/-- The algebra of points of a Euclidean space, over a null basis. -/
def conformal (d : Int) : Result Algebra := do
  return { metric := ← Metric.ofNull (d + 1) 1 0, euclidean := some d.toNat }

/-- The number of basis vectors. -/
def n (A : Algebra) : Nat := A.metric.n

/-- The number of basis blades. -/
def dim (A : Algebra) : Nat := A.metric.dim

/-- The written form of an algebra. -/
def display (A : Algebra) : String :=
  A.metric.signature.display (if A.euclidean.isSome then "ConformalAlgebra" else "CliffordAlgebra")

/-- A multiple of a basis vector. -/
def basisVector (A : Algebra) (index : Int) (q : Literal) : Result Multivector :=
  if 0 ≤ index ∧ index < A.n then do return .basis (Blade.vector index.toNat) (← q.coefficient)
  else .error (.violation (.basisVectorRange index A.n))

/-- A multiple of the blade of all basis vectors. -/
def pseudoscalar (A : Algebra) (q : Rat) : Multivector := .basis A.metric.pseudoscalar q

/-- The inverse of the pseudoscalar, which exists unless a basis vector squares to zero. -/
def pseudoscalarInverse (A : Algebra) : Result Multivector :=
  let s := A.metric.signature
  if 0 < s.degenerate then .error (.domain .degeneratePseudoscalar)
  else .ok (A.pseudoscalar (Blade.pseudoscalarInverseSign s.n s.negative))

/-- The blades of one grade. -/
def gradeElements (A : Algebra) (grade : Int) : List Nat :=
  (List.range A.dim).filter fun e => (Blade.grade e : Int) = grade

/-- The geometric product. -/
def geometric (A : Algebra) (a b : Multivector) : Result Multivector :=
  BladeProduct.geometric.product A.metric a b

/-- The exterior product. -/
def wedge (A : Algebra) (a b : Multivector) : Result Multivector :=
  BladeProduct.exterior.product A.metric a b

/-- The left contraction. -/
def contract (A : Algebra) (a b : Multivector) : Result Multivector :=
  BladeProduct.contract.product A.metric a b

/-- The symmetric inner product. -/
def inner (A : Algebra) (a b : Multivector) : Result Multivector :=
  BladeProduct.symmetricInner.product A.metric a b

/-- The scalar part of the symmetric inner product. -/
def scalarProduct (A : Algebra) (a b : Multivector) : Result Multivector := do
  (← A.inner a b).extract 0

/-- The regressive product. -/
def regressive (A : Algebra) (a b : Multivector) : Result Multivector :=
  a.regressive A.metric b

/-- The product `v * a * reverse v`. -/
def sandwich (A : Algebra) (a versor : Multivector) : Result Multivector := do
  A.geometric (← A.geometric versor a) (← versor.reverse)

/-- The signed complement. -/
def dual (A : Algebra) (a : Multivector) : Result Multivector := a.dual A.n

/-- The null vector of the origin. -/
def origin (A : Algebra) : Result Multivector :=
  match A.euclidean with
  | some d => .ok (.basis (Blade.vector d) 1)
  | none => .error .unavailable

/-- The null vector at infinity. -/
def infinity (A : Algebra) : Result Multivector :=
  match A.euclidean with
  | some d => .ok (.basis (Blade.vector (d + 1)) 1)
  | none => .error .unavailable

/-- The sum of a point's vectors and the square of its length. -/
def addCoordinates : Nat → List Rat → Multivector → Rat → Result (Multivector × Rat)
  | _, [], sum, square => .ok (sum, square)
  | i, c :: rest, sum, square => do
    let sum ← sum.add (.basis (Blade.vector i) c)
    let square ← gatedAdd square (← gatedMul c c)
    addCoordinates (i + 1) rest sum square

/-- The null vector `x + e_o + |x|² / 2 * e_inf` of a Euclidean point. -/
def up (A : Algebra) (coordinates : List Literal) : Result Multivector :=
  match A.euclidean with
  | none => .error .unavailable
  | some d =>
    if coordinates.length ≠ d then .error (.violation (.coordinateCount d))
    else do
      let coordinates ← coordinates.mapM Literal.coefficient
      let (sum, square) ← addCoordinates 0 coordinates (← A.origin) 0
      sum.add (.basis (Blade.vector (d + 1)) (← gatedMul square (1 / 2)))

end Algebra

end Clifford
