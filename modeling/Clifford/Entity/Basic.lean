import Clifford.Entity.Kind
import Clifford.Tensor.Broadcast
import Clifford.Text.Numeral

/-! Entities: batches of field values of one kind. -/

namespace Clifford

/-- Field values of a kind of entity, along the last dimension of a tensor. -/
structure Entity (α : Type) where
  kind : EntityKind
  data : Tensor α

namespace Entity

variable {α β : Type}

/-- The entity of a tensor, whose last dimension has to run over the fields. -/
def ofTensor (kind : EntityKind) (data : Tensor α) : Result (Entity α) := do
  data.requireWidth kind.size .entityFields kind.name
  return ⟨kind, data⟩

/-- Tensors of one shape as the slices along a new last dimension. -/
def stack (tensors : List (Tensor α)) : Result (Tensor α) := do
  if tensors.isEmpty then throw .emptyTensor
  let shape ← broadcastShapes (tensors.map (·.shape))
  return .ofColumns shape (tensors.map fun t => broadcastEntries t.shape shape t.entries)

/-- The value of a field that is given by name. -/
def namedField (named : List (String × Tensor α)) (field : String) : Result (Tensor α) :=
  match named.lookup field with
  | some value => .ok value
  | none => .error .unknownName

/-- The entity of one tensor for each field, given by position or else by name. -/
def ofFields (kind : EntityKind) (positional : List (Tensor α))
    (named : List (String × Tensor α)) : Result (Entity α) := do
  if named.isEmpty then ofTensor kind (← stack positional)
  else if !positional.isEmpty then throw (.violation .mixedFields)
  else ofTensor kind (← stack (← kind.fields.mapM (namedField named)))

/-- An entity with other numbers. -/
def map (f : α → β) (e : Entity α) : Entity β := ⟨e.kind, e.data.map f⟩

/-- The values of one field. -/
def field (e : Entity α) (index : Nat) : Tensor α :=
  ⟨e.data.batchShape, e.data.rows.filterMap (·[index]?)⟩

/-- The written form of an entity. -/
def display (e : Entity α) : String :=
  e.kind.name ++ "(batch=" ++ Text.tuple e.data.batchShape ++ ")"

end Entity

end Clifford
