import Clifford.Entity.Basic
import Clifford.Numeric.Precision
import Clifford.Plan.Evaluate

/-! Reading of computed multivectors: single coefficients, dense tensors, and entities. -/

namespace Clifford

namespace NumericMultivector

variable {α : Type}

/-- The multivector of a tensor, whose last dimension has to run over the blades. -/
def ofTensor (elements : List Nat) (data : Tensor α) : Result (NumericMultivector α) := do
  data.requireWidth elements.length .entityFields "MultivectorEntity"
  return ⟨elements, data⟩

/-- The coefficients on a blade, which are zero if it is not stored. -/
def select [Zero α] (m : NumericMultivector α) (element : Nat) : Tensor α :=
  let shape := m.data.batchShape
  match m.elements.idxOf? element with
  | some index => ⟨shape, m.data.rows.filterMap (·[index]?)⟩
  | none => ⟨shape, List.replicate (Tensor.count shape) 0⟩

/-- The coefficients on the first blades of a space, which has to hold all stored ones. -/
def dense [Zero α] (m : NumericMultivector α) (dim : Nat) : Result (Tensor α) :=
  if m.elements.any (dim ≤ ·) then .error .indexRange
  else
    let row (values : List α) : List α :=
      let stored := (m.elements.zip values).reverse
      (List.range dim).map fun blade => (stored.lookup blade).getD 0
    .ok (.ofRows m.data.batchShape dim (m.data.rows.map row))

/-- The written form of a computed multivector. -/
def display (m : NumericMultivector α) : String :=
  "MultivectorEntity(elements=" ++ Text.tuple m.elements ++ ", batch="
    ++ Text.tuple m.data.batchShape ++ ")"

end NumericMultivector

namespace Entity

variable {α : Type} [Elementary α]

open Elementary

/-- Combines the entries of two tensors of one shape. -/
def zipEntries (f : α → α → α) (s t : Tensor α) : Tensor α :=
  ⟨s.shape, List.zipWith f s.entries t.entries⟩

/-- The coordinates of a point as ratios to a weight. -/
def ratios (m : NumericMultivector α) (weight : Nat) (elements : List Nat) : List (Tensor α) :=
  elements.map fun element => zipEntries (· / ·) (m.select element) (m.select weight)

/-- The radius of a sphere from its center, its weight and its coefficient at infinity. -/
def radius (center : List α) (weight atInfinity : α) : α :=
  let square := total (center.map fun c => c * c) - ofDouble 2 * atInfinity / weight
  sqrt (larger square 0)

/-- The radii of spheres from the coordinates of their centers. -/
def radii (m : NumericMultivector α) (center : List (Tensor α)) : Tensor α :=
  let weights := m.select EntityKind.originBlade
  let rows := Tensor.transpose weights.entries.length (center.map (·.entries))
  let rest := weights.entries.zip (m.select EntityKind.infinityBlade).entries
  ⟨weights.shape, List.zipWith (fun c (w, i) => radius c w i) rows rest⟩

/-- The fields of a kind of entity in a computed multivector; points are divided by their weight. -/
def fieldsOf (kind : EntityKind) (m : NumericMultivector α) : List (Tensor α) :=
  match kind with
  | .projectivePoint =>
    let weight := m.select EntityKind.pointWeight
    List.zipWith (fun element negative =>
        let values := m.select element
        zipEntries (· / ·) (if negative then values.map (- ·) else values) weight)
      kind.elements [true, false, true]
  | .conformalPoint => ratios m EntityKind.originBlade kind.elements
  | .sphere =>
    let center := ratios m EntityKind.originBlade [0b001, 0b010, 0b100]
    center ++ [radii m center]
  | .flatPoint => ratios m (EntityKind.originBlade ||| EntityKind.infinityBlade) kind.elements
  | _ => kind.elements.map m.select

/-- The entity that a computed multivector represents. -/
def ofMultivector (kind : EntityKind) (m : NumericMultivector α) : Result (Entity α) := do
  ofTensor kind (← stack (fieldsOf kind m))

end Entity

end Clifford
