import Clifford.Multivector.Collate

/-! Kinds of entities: named fields, the blades they live on, and the symbolic value of a leaf. -/

namespace Clifford

/-- The entities of the Euclidean, projective and conformal models of space, and custom ones: those with
one indeterminate for each field on its blade, and those that choose another polynomial, given by its
entries, in which the ids count the fields. -/
inductive EntityKind
  | scalar
  | vector
  | bivector
  | rotor
  | plane
  | line
  | projectivePoint
  | conformalPoint
  | sphere
  | flatPoint
  | custom (name : String) (fields : List String) (elements : List Nat)
  | polynomial (name : String) (fields : List String) (elements : List Nat) (entries : List Entry)
deriving DecidableEq

namespace EntityKind

/-- The entity of a name in one of the models. -/
def ofName? : String → Option EntityKind
  | "Scalar" => some scalar
  | "vga.Vector" => some vector
  | "vga.Bivector" => some bivector
  | "vga.Rotor" => some rotor
  | "pga.Plane" => some plane
  | "pga.Line" => some line
  | "pga.Point" => some projectivePoint
  | "cga.Point" => some conformalPoint
  | "cga.Sphere" => some sphere
  | "cga.FlatPoint" => some flatPoint
  | _ => none

/-- A custom entity, with one blade for each field. -/
def ofFields (name : String) (fields : List String) (elements : List Nat) : Result EntityKind :=
  if fields.length = elements.length then .ok (custom name fields elements)
  else .error (.violation (.fieldCount name fields.length elements.length))

/-- The name of an entity. -/
def name : EntityKind → String
  | scalar => "Scalar"
  | vector => "Vector"
  | bivector => "Bivector"
  | rotor => "Rotor"
  | plane => "Plane"
  | line => "Line"
  | projectivePoint => "Point"
  | conformalPoint => "Point"
  | sphere => "Sphere"
  | flatPoint => "FlatPoint"
  | custom name _ _ => name
  | polynomial name _ _ _ => name

/-- The names of the fields in order. -/
def fields : EntityKind → List String
  | scalar => ["value"]
  | vector => ["x", "y", "z"]
  | bivector => ["b12", "b13", "b23"]
  | rotor => ["s", "b12", "b13", "b23"]
  | plane => ["a", "b", "c", "d"]
  | line => ["e12", "e13", "e23", "e10", "e20", "e30"]
  | projectivePoint => ["x", "y", "z"]
  | conformalPoint => ["x", "y", "z"]
  | sphere => ["x", "y", "z", "r"]
  | flatPoint => ["x", "y", "z"]
  | custom _ fields _ => fields
  | polynomial _ fields _ _ => fields

/-- The blade of each field. -/
def elements : EntityKind → List Nat
  | scalar => [0]
  | vector => [0b001, 0b010, 0b100]
  | bivector => [0b011, 0b101, 0b110]
  | rotor => [0b000, 0b011, 0b101, 0b110]
  | plane => [0b0001, 0b0010, 0b0100, 0b1000]
  | line => [0b0011, 0b0101, 0b0110, 0b1001, 0b1010, 0b1100]
  | projectivePoint => [0b1110, 0b1101, 0b1011]
  | conformalPoint => [0b00001, 0b00010, 0b00100]
  | sphere => [0b00001, 0b00010, 0b00100, 0b10000]
  | flatPoint => [0b10001, 0b10010, 0b10100]
  | custom _ _ elements => elements
  | polynomial _ _ elements _ => elements

/-- The number of fields. -/
def size (kind : EntityKind) : Nat := kind.fields.length

/-- The blade of the weight of a projective point. -/
def pointWeight : Nat := 0b0111

/-- The blade of the conformal null vector of the origin. -/
def originBlade : Nat := 0b01000

/-- The blade of the conformal null vector at infinity. -/
def infinityBlade : Nat := 0b10000

/-- The null vector of a point whose coordinates are indeterminates. -/
def conformalEntries (id : Nat) : List Entry :=
  Entry.of originBlade 1 [] :: ([0b001, 0b010, 0b100].mapIdx fun i element =>
    [Entry.of element 1 [Power.linear (id + i)],
      Entry.of infinityBlade (1 / 2) [⟨id + i, 2⟩]]).flatten

/-- An entry in which the ids count fields, over the fields whose ids begin at `id`. -/
def shift (id : Nat) (e : Entry) : Entry :=
  .of e.element e.monomial.coefficient (e.monomial.powers.map fun p => ⟨id + p.id, p.degree⟩)

/-- The symbolic value of an entity whose fields are indeterminates with consecutive ids. -/
def leaf (kind : EntityKind) (id : Nat) : Result Multivector :=
  match kind with
  | projectivePoint => collate
    [Entry.of pointWeight 1 [], Entry.of 0b1110 (-1) [Power.linear id],
      Entry.of 0b1101 1 [Power.linear (id + 1)], Entry.of 0b1011 (-1) [Power.linear (id + 2)]]
  | conformalPoint => collate (conformalEntries id)
  | sphere => collate
    (conformalEntries id ++ [Entry.of infinityBlade (-1 / 2) [⟨id + 3, 2⟩]])
  | flatPoint => collate (Entry.of (originBlade ||| infinityBlade) 1 [] ::
      flatPoint.elements.mapIdx fun i element => Entry.of element 1 [Power.linear (id + i)])
  | polynomial _ _ _ entries => collate (entries.map (shift id))
  | _ => Multivector.ofElements id kind.elements

end EntityKind

end Clifford
