import Clifford.Error

/-! Tensors: entries in row-major order under a shape, and the rows along the last dimension. -/

namespace Clifford

/-- The number of entries that a shape has room for. -/
def Tensor.count : List Nat → Nat
  | [] => 1
  | size :: rest => size * Tensor.count rest

/-- Entries in row-major order, as many as the product of the shape. -/
structure Tensor (α : Type) where
  shape : List Nat
  entries : List α

namespace Tensor

variable {α β : Type}

/-- A tensor of other entries. -/
def map (f : α → β) (t : Tensor α) : Tensor β := ⟨t.shape, t.entries.map f⟩

/-- The shape without the last dimension. -/
def batchShape (t : Tensor α) : List Nat := t.shape.dropLast

/-- The last dimension, which a tensor without dimensions does not have. -/
def width? (t : Tensor α) : Option Nat := t.shape.getLast?

/-- Cuts entries into the given number of rows. -/
def chunks (width : Nat) : Nat → List α → List (List α)
  | 0, _ => []
  | count + 1, entries => entries.take width :: chunks width count (entries.drop width)

/-- The rows of entries along the last dimension. -/
def rows (t : Tensor α) : List (List α) :=
  chunks (t.shape.getLastD 0) (count t.batchShape) t.entries

/-- The tensor of rows of one width. -/
def ofRows (batchShape : List Nat) (width : Nat) (rows : List (List α)) : Tensor α :=
  ⟨batchShape ++ [width], rows.flatten⟩

/-- The rows with the given columns. -/
def transpose (count : Nat) (columns : List (List α)) : List (List α) :=
  columns.foldr (List.zipWith List.cons) (List.replicate count [])

/-- The tensor whose last dimension runs over the given columns. -/
def ofColumns (batchShape : List Nat) (columns : List (List α)) : Tensor α :=
  ofRows batchShape columns.length (transpose (count batchShape) columns)

/-- Passes tensors with a last dimension of the given size. -/
def requireWidth (t : Tensor α) (width : Nat) (what : TrailingSize) (name : String) :
    Result Unit :=
  match t.width? with
  | none => .error (.violation (.tensorRank name t.shape))
  | some found =>
    if found = width then .ok ()
    else .error (.violation (.tensorSize name width what t.shape))

end Tensor

end Clifford
