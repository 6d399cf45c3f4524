import Clifford.Algebra
import Clifford.Numeric.Precision
import Clifford.Position
import Clifford.Tensor.Broadcast

/-! Dense multivectors, one coefficient for each blade: products, exponentials and logarithms. -/

namespace Clifford

/-- The coefficient of a blade in the product of two others, over the orthogonal basis. -/
def Algebra.cayley (A : Algebra) (left right target : Nat) : Int :=
  let (blade, sign) := BladeProduct.geometric.compute A.metric.base left right
  if blade = target then sign else 0

/-- The coefficients other than zero of all products of two blades. -/
def Algebra.cayleyEntries (A : Algebra) : List (Nat × Nat × Nat × Int) :=
  let blades := List.range A.dim
  blades.flatMap fun left => blades.flatMap fun right => blades.filterMap fun target =>
    let sign := A.cayley left right target
    if sign = 0 then none else some (left, right, target, sign)

/-- The sum of the products of two lists, entry by entry. -/
def dot {α : Type} [Zero α] [Add α] [Mul α] (xs ys : List α) : α :=
  total (List.zipWith (· * ·) xs ys)

/-- Tables of an algebra. The signs are listed by target and left blade, and a change of basis by
target and source blade. -/
structure DenseAlgebra (α : Type) where
  vectors : Nat
  signs : List (List α)
  toDiagonal? : Option (List (List α))
  toWorking? : Option (List (List α))

namespace DenseAlgebra

/-- The number of blades. -/
def dim {α : Type} (k : DenseAlgebra α) : Nat := 1 <<< k.vectors

/-- The signs of the products of pairs of blades that give a target, by left blade. -/
def signRow (A : Algebra) (target : Nat) : List Int :=
  (List.range A.dim).map fun left => A.cayley left (left ^^^ target) target

/-- The coefficients of the images of all blades on a target. -/
def imageRow (images : List (List (Nat × Rat))) (target : Nat) : Result (List Float) :=
  images.mapM fun image => toDouble ((image.lookup target).getD 0)

/-- The table of a change of basis. -/
def basisTable (A : Algebra) (change : Multivector → Result Multivector) :
    Result (List (List Float)) := do
  let images ← (List.range A.dim).mapM fun blade => do
    (← change (.basis blade 1)).denseCoefficients
  (List.range A.dim).mapM (imageRow images)

section Product

variable {α : Type} [Zero α] [Add α] [Mul α]

/-- The geometric product of two dense multivectors over the orthogonal basis. -/
def product (k : DenseAlgebra α) (a b : List α) : List α :=
  let right := b.toArray
  k.signs.mapIdx fun target row =>
    total (List.zipWith (· * ·) (a.mapIdx fun left x => x * right.getD (left ^^^ target) 0) row)

/-- A dense multivector over another basis. -/
def changeBasis (table? : Option (List (List α))) (a : List α) : List α :=
  match table? with
  | none => a
  | some table => table.map (dot a)

/-- A dense multivector over the orthogonal basis. -/
def toNatural (k : DenseAlgebra α) (a : List α) : List α := changeBasis k.toDiagonal? a

/-- A dense multivector over the working basis. -/
def fromNatural (k : DenseAlgebra α) (a : List α) : List α := changeBasis k.toWorking? a

end Product

variable {α : Type} [Elementary α]

open Elementary

/-- The tables of an algebra. -/
def ofAlgebra (A : Algebra) : Result (DenseAlgebra α) := do
  let signs := (List.range A.dim).map fun target =>
    (signRow A target).map fun sign => ofDouble (Float.ofInt sign)
  if A.metric.isDiagonal then return ⟨A.n, signs, none, none⟩
  let numbers (table : List (List Float)) : List (List α) := table.map (·.map ofDouble)
  return ⟨A.n, signs, some (numbers (← basisTable A A.metric.diagonalize)),
    some (numbers (← basisTable A A.metric.undiagonalize))⟩

/-- Which blades are of a grade that the algebra has. -/
def gradeMask (k : DenseAlgebra α) (grade : Int) : Result (List Bool) :=
  match position? (k.vectors + 1) grade with
  | some g => .ok ((List.range k.dim).map fun blade => Blade.grade blade = g)
  | none => .error .indexRange

/-- Keeps the coefficients of some blades and multiplies all others by zero. -/
def keep (mask : List Bool) (a : List α) : List α :=
  List.zipWith (fun x kept => x * if kept then one else 0) a mask

/-- Refuses for a cause that was found. -/
def refuseIf (found : Bool) (cause : DomainError) : Result Unit :=
  if found then .error (.domain cause) else .ok ()

/-- Whether a multivector has more than rounding errors outside of some blades. -/
def strays (mask : List Bool) (a : List α) : Bool :=
  let stray := keep (mask.map (!·)) a
  let scale := (a.map magnitude).foldl larger 0 + tolerance
  stray.any fun x => lt (tolerance * scale) (magnitude x)

/-- Whether the square of a bivector is more than a number up to rounding errors. -/
def compound (square : List α) : Bool :=
  let energy := total (square.map fun x => x * x)
  let scalarPart := square.headD 0
  lt (tolerance * (energy + tolerance)) (energy - scalarPart * scalarPart)

/-- Below this angle the ratio of sine and angle is one. -/
def tinyAngle : α := ofDouble 1e-7

/-- The exponential of a bivector with a given square. -/
def expRow (a : List α) (square : α) : List α :=
  let angle := sqrt (magnitude square)
  let tiny := lt angle tinyAngle
  let divisor := if tiny then one else angle
  let elliptic := lt square 0
  let even := if elliptic then cos angle else cosh angle
  let ratio := (if elliptic then sin divisor else sinh divisor) / divisor
  let odd := if tiny then one else ratio
  match a.map (odd * ·) with
  | [] => []
  | _ :: rest => even :: rest

/-- The exponentials of bivectors, which have to square to numbers. -/
def exp (k : DenseAlgebra α) (rows : List (List α)) : Result (List (List α)) := do
  let rows := rows.map k.toNatural
  let mask ← k.gradeMask 2
  refuseIf (rows.any (strays mask)) .expStray
  let squares := rows.map fun a => k.product a a
  refuseIf (squares.any compound) (.notSimple .exp)
  return List.zipWith (fun a square => k.fromNatural (expRow a (square.headD 0))) rows squares

/-- The bivector part of a rotor, its scalar part and the square of its bivector part. -/
structure RotorParts (α : Type) where
  bivector : List α
  scalar : α
  square : α

namespace RotorParts

/-- The length of the bivector part. -/
def norm (r : RotorParts α) : α := sqrt (larger (magnitude r.square) (ofDouble 1e-24))

/-- The bivector part squares to a negative number. -/
def isElliptic (r : RotorParts α) : Bool := lt r.square (ofDouble (-1e-12))

/-- The bivector part squares to a positive number. -/
def isHyperbolic (r : RotorParts α) : Bool := lt (ofDouble 1e-12) r.square

/-- Without rotation, the scalar part has to be positive. -/
def lacksLogarithm (r : RotorParts α) : Bool := !r.isElliptic && le r.scalar 0

/-- A boost is shorter than its scalar part. -/
def exceedsScalar (r : RotorParts α) : Bool := r.isHyperbolic && le (magnitude r.scalar) r.norm

/-- The multiplier that takes the bivector part to the logarithm. -/
def logFactor (r : RotorParts α) : α :=
  let scalar := if lt (ofDouble 1e-12) (magnitude r.scalar) then r.scalar else one
  let long := lt tinyAngle r.norm
  let ratio := smaller (r.norm / scalar) (ofDouble (1.0 - 1e-7))
  if r.isElliptic then if long then atan2 r.norm r.scalar / r.norm else one / scalar
  else if r.isHyperbolic then if long then atanh ratio / r.norm else one / scalar
  else one / scalar

end RotorParts

/-- The logarithms of rotors, where these exist. -/
def log (k : DenseAlgebra α) (rows : List (List α)) : Result (List (List α)) := do
  let rows := rows.map k.toNatural
  let bivectors ← k.gradeMask 2
  let scalars ← k.gradeMask 0
  refuseIf (rows.any (strays (List.zipWith (· || ·) scalars bivectors))) .logStray
  let planes := rows.map (keep bivectors)
  let squares := planes.map fun a => k.product a a
  refuseIf (squares.any compound) (.notSimple .log)
  let parts : List (RotorParts α) :=
    List.zipWith (fun (a, row) square => ⟨a, row.headD 0, square.headD 0⟩) (planes.zip rows) squares
  refuseIf (parts.any RotorParts.lacksLogarithm) .logNonPositive
  refuseIf (parts.any RotorParts.exceedsScalar) .logBoost
  return parts.map fun r => k.fromNatural (r.bivector.map (r.logFactor * ·))

/-- Applies a function of rows to a tensor whose last dimension runs over the blades. -/
def onTensor (k : DenseAlgebra α) (name : String) (f : List (List α) → Result (List (List α)))
    (t : Tensor α) : Result (Tensor α) := do
  t.requireWidth k.dim .algebraDimension name
  return .ofRows t.batchShape k.dim (← f t.rows)

/-- Changes the basis of a tensor of dense multivectors. -/
def changeTensor (table? : Option (List (List α))) (t : Tensor α) : Result (Tensor α) :=
  match table? with
  | none => .ok t
  | some table =>
    if t.width? = some table.length then
      .ok (.ofRows t.batchShape table.length (t.rows.map (changeBasis table?)))
    else .error .shapeMismatch

/-- The part of one grade of a tensor, which broadcasts to the blades of the algebra. -/
def gradeTensor (k : DenseAlgebra α) (grade : Int) (t : Tensor α) : Result (Tensor α) := do
  let mask ← k.gradeMask grade
  let shape ← broadcastShape t.shape [k.dim]
  let all : Tensor α := ⟨shape, broadcastEntries t.shape shape t.entries⟩
  return .ofRows all.batchShape k.dim (all.rows.map (keep mask))

/-- The products of two tensors of dense multivectors, whose batches broadcast. -/
def productTensor (k : DenseAlgebra α) (a b : Tensor α) : Result (Tensor α) := do
  a.requireWidth k.dim .algebraDimension "geometric_product(A)"
  b.requireWidth k.dim .algebraDimension "geometric_product(B)"
  let shape ← broadcastShape a.batchShape b.batchShape
  let left := broadcastEntries a.batchShape shape a.rows
  let right := broadcastEntries b.batchShape shape b.rows
  return .ofRows shape k.dim (List.zipWith k.product left right)

end DenseAlgebra

end Clifford
