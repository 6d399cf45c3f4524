import Clifford.Entity.Basic
import Clifford.Numeric.Precision

/-! Entities whose numbers arrive in one of several formats; whole numbers are kept in single
precision. -/

namespace Clifford

/-- The formats that numbers arrive in. -/
inductive Storage
  | whole
  | floating (precision : Precision)
deriving DecidableEq, Repr

namespace Storage

/-- The format of a written name. -/
def ofName? : String → Option Storage
  | "int64" => some whole
  | text => (Precision.ofName? text).map floating

/-- The precision that the numbers of an entity are kept in. -/
def precision : Storage → Precision
  | whole => .single
  | floating p => p

/-- A number in a format, where whole numbers lose their fraction. -/
def store (s : Storage) (x : Float) : Float :=
  match s with
  | whole => if x < 0 then x.ceil else x.floor
  | floating _ => x

end Storage

/-- An entity in the precision that it is kept in. -/
inductive StoredEntity
  | single (e : Entity Float32)
  | double (e : Entity Float)

namespace StoredEntity

/-- The kind of an entity. -/
def kind : StoredEntity → EntityKind
  | single e => e.kind
  | double e => e.kind

/-- An entity in a given precision. -/
def convert (α : Type) [Elementary α] : StoredEntity → Entity α
  | single e => e.map fun x => Elementary.ofDouble (Elementary.widen x)
  | double e => e.map Elementary.ofDouble

/-- An entity of numbers in a format. -/
def ofEntity (s : Storage) (e : Entity Float) : StoredEntity :=
  match s.precision with
  | .single => single (e.map fun x => (s.store x).toFloat32)
  | .double => double (e.map s.store)

/-- An entity converted to a format. -/
def store (s : Storage) (e : StoredEntity) : StoredEntity := ofEntity s (e.convert Float)

end StoredEntity

end Clifford
