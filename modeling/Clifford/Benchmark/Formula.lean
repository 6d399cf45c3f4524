import Clifford.Entity.Reading
import Clifford.Planner.Compute

/-! Benchmarks: geometric formulas with a closed form that their results are compared with. -/

namespace Clifford

/-- The registered formulas. -/
inductive Benchmark
  | rotateVector
  | planePointIncidence
  | spherePointPower
  | pointDistance
deriving DecidableEq, Repr

namespace Benchmark

/-- Every benchmark. -/
def all : List Benchmark := [rotateVector, planePointIncidence, spherePointPower, pointDistance]

/-- The written name of a benchmark. -/
def name : Benchmark → String
  | rotateVector => "rotate_vector"
  | planePointIncidence => "plane_point_incidence"
  | spherePointPower => "sphere_point_power"
  | pointDistance => "point_distance"

/-- The benchmark of a written name, which has to be known. -/
def ofText (text : String) : Result Benchmark :=
  match all.find? (·.name = text) with
  | some b => .ok b
  | none => .error (.unknownFormula text (all.map name))

/-- The algebra that a formula lives in. -/
def algebra : Benchmark → Result Algebra
  | rotateVector => Algebra.clifford 3 0 0 none
  | planePointIncidence => Algebra.clifford 3 0 1 none
  | _ => Algebra.conformal 3

/-- The kinds of the entities that a formula takes. -/
def inputs : Benchmark → List EntityKind
  | rotateVector => [.bivector, .vector]
  | planePointIncidence => [.plane, .projectivePoint]
  | spherePointPower => [.sphere, .conformalPoint]
  | pointDistance => [.conformalPoint, .conformalPoint]

/-- The formula over its two leaves. -/
def formula : Benchmark → Expr
  | rotateVector => .sandwich (.leaf 1) (.unary .exp (.scaled (-1 / 2) (.leaf 0)))
  | planePointIncidence => .wedge (.leaf 0) (.leaf 1)
  | spherePointPower => .scalarProduct (.leaf 0) (.leaf 1)
  | pointDistance => .unary .sqrt (.scaled (-2) (.scalarProduct (.leaf 0) (.leaf 1)))

/-- The compiled program of the formula alone. -/
def program (b : Benchmark) (eliminate : Bool) : Result Program :=
  Program.compile eliminate [b.formula]

section Numbers

variable {α : Type} [Elementary α]

open Elementary

/-- The quantity that a benchmark reads off the output of its formula. -/
def read (b : Benchmark) (m : NumericMultivector α) : Result (Tensor α) :=
  match b with
  | rotateVector => do return (← Entity.ofMultivector .vector m).data
  | planePointIncidence => .ok ((m.select 0b1111).map (- ·))
  | _ => .ok (m.select 0)

/-- The length of a vector. -/
def length (v : List α) : α := sqrt (dot v v)

/-- The cross product of two vectors of space. -/
def cross : List α → List α → List α
  | [a, b, c], [x, y, z] => [b * z - c * y, c * x - a * z, a * y - b * x]
  | _, _ => []

/-- A vector rotated about the axis dual to a bivector, by an angle of the bivector's length. -/
def rotated (b v : List α) : List α :=
  match b with
  | [b12, b13, b23] =>
    let axis := [b23, -b13, b12]
    let angle := length axis
    let unit := axis.map (· / larger angle (ofDouble 1e-12))
    let along := dot unit v
    let turned := List.zipWith (fun x y => x * cos angle + y * sin angle) v (cross unit v)
    List.zipWith (fun x k => x + k * along * (one - cos angle)) turned unit
  | _ => []

/-- The value of the equation of a plane at a point. -/
def incidence (plane point : List α) : α := dot plane point + plane.getD 3 0

/-- Half of what the squared radius exceeds the squared distance to the center by. -/
def power (sphere point : List α) : α :=
  let offset : List α := List.zipWith (· - ·) point sphere
  let radius := sphere.getD 3 0
  ofDouble 0.5 * (radius * radius - dot offset offset)

/-- The distance of two points. -/
def distance (p q : List α) : α := length (List.zipWith (· - ·) p q)

/-- The closed form of a benchmark on one row of each input. -/
def referenceRow (b : Benchmark) (x y : List α) : List α :=
  match b with
  | rotateVector => rotated x y
  | planePointIncidence => [incidence x y]
  | spherePointPower => [power x y]
  | pointDistance => [distance x y]

/-- The closed form of a benchmark on a batch. -/
def reference (b : Benchmark) (x y : Tensor α) : Result (Tensor α) := do
  let shape ← broadcastShape x.batchShape y.batchShape
  let rows := List.zipWith b.referenceRow (broadcastEntries x.batchShape shape x.rows)
    (broadcastEntries y.batchShape shape y.rows)
  return ⟨if b = rotateVector then shape ++ [3] else shape, rows.flatten⟩

/-- The largest difference of two tensors of one shape, which have to hold a value. -/
def largestError (got expected : Tensor α) : Result Float :=
  match List.zipWith (fun x y => magnitude (x - y)) got.entries expected.entries with
  | [] => .error .emptyTensor
  | first :: rest => .ok (widen (rest.foldl larger first))

end Numbers

end Benchmark

end Clifford
