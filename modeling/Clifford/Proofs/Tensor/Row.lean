import Clifford.Proofs.Tensor.Broadcast

/-! Single rows of a batch: the row of a tensor that an index selects, and the part of columns that
belongs to it. -/

namespace Clifford

/-- The part of a column that belongs to one row of a batch. -/
def oneRow {α : Type} (i : Nat) (column : List α) : List α := column[i]?.toList

section OneRow

variable {α β γ : Type} (i : Nat)

/-- A function of a column is taken row by row. -/
@[simp] theorem oneRow_map (f : α → β) (column : List α) :
    oneRow i (column.map f) = (oneRow i column).map f := by
  rw [oneRow, oneRow, List.getElem?_map]
  cases column[i]? <;> rfl

/-- A function of two columns is taken row by row. -/
@[simp] theorem oneRow_zipWith (f : α → β → γ) (left : List α) (right : List β) :
    oneRow i (List.zipWith f left right) = List.zipWith f (oneRow i left) (oneRow i right) := by
  rw [oneRow, oneRow, oneRow, List.getElem?_zipWith]
  cases left[i]? <;> cases right[i]? <;> rfl

/-- Pairs of two columns are taken row by row. -/
@[simp] theorem oneRow_zip (left : List α) (right : List β) :
    oneRow i (left.zip right) = (oneRow i left).zip (oneRow i right) :=
  oneRow_zipWith i Prod.mk left right

variable {i}

/-- A column of one value has it in every row. -/
theorem oneRow_replicate {count : Nat} (inside : i < count) (x : α) :
    oneRow i (List.replicate count x) = [x] := by
  rw [oneRow, List.getElem?_replicate_of_lt inside]
  rfl

/-- A column of a single row. -/
theorem oneRow_eq {column : List α} {x : α} (found : column[i]? = some x) : oneRow i column = [x] := by
  rw [oneRow, found]
  rfl

/-- The entry of a row is one of those of the column. -/
theorem mem_of_mem_oneRow {column : List α} {x : α} (inside : x ∈ oneRow i column) : x ∈ column := by
  rw [oneRow, Option.mem_toList] at inside
  exact List.mem_of_getElem? inside

end OneRow

namespace Tensor

variable {α : Type} {count i : Nat} {columns : List (List α)}

/-- Columns are turned into rows one row at a time. -/
theorem oneRow_transpose (inside : i < count) (columns : List (List α)) :
    oneRow i (transpose count columns) = transpose 1 (columns.map (oneRow i)) := by
  -- Each column adds its entry to every row, and so to the row that is kept.
  rw [transpose, transpose, List.foldr_map]
  induction columns with
  | nil => exact oneRow_replicate inside []
  | cons column rest ih => rw [List.foldr_cons, List.foldr_cons, oneRow_zipWith, ih]

/-- Columns give at most as many rows as asked for. -/
theorem length_transpose_le (count : Nat) (columns : List (List α)) :
    (transpose count columns).length ≤ count := by
  -- Pairing with a column never makes more rows.
  rw [transpose]
  induction columns with
  | nil => rw [List.foldr_nil, List.length_replicate]
  | cons column rest ih =>
    rw [List.foldr_cons, List.length_zipWith]
    exact (Nat.min_le_right _ _).trans ih

/-- Columns that reach every row give all of them. -/
theorem length_transpose (reach : ∀ column ∈ columns, column.length = count) :
    (transpose count columns).length = count := by
  -- No column is too short to reach the last row.
  rw [transpose]
  induction columns with
  | nil => rw [List.foldr_nil, List.length_replicate]
  | cons column rest ih =>
    rw [List.foldr_cons, List.length_zipWith, reach column (by simp),
      ih fun other member => reach other (List.mem_cons_of_mem _ member), Nat.min_self]

/-- Rows have an entry for every column. -/
theorem length_of_mem_transpose {row : List α} (inside : row ∈ transpose count columns) :
    row.length = columns.length := by
  rw [transpose] at inside
  induction columns generalizing row with
  | nil =>
    rw [List.foldr_nil] at inside
    rw [List.eq_of_mem_replicate inside]
    rfl
  | cons column rest ih =>
    rw [List.foldr_cons] at inside
    -- A row is an entry of the first column in front of a row of the others.
    obtain ⟨k, found⟩ := List.mem_iff_getElem?.mp inside
    obtain ⟨x, shorter, -, second, rfl⟩ := List.getElem?_zipWith_eq_some.mp found
    rw [List.length_cons, List.length_cons, ih (List.mem_of_getElem? second)]

/-- The row of a tensor that an index selects of a batch that it broadcasts to. -/
def row (t : Tensor α) (index : List Nat) : Tensor α :=
  ⟨t.shape.drop t.batchShape.length, t.rows.getD (offset t.batchShape (align t.batchShape index)) []⟩

/-- The shape of a row is the last dimension. -/
theorem shape_row (t : Tensor α) (index : List Nat) : (t.row index).shape = t.width?.toList := by
  rw [row, batchShape, width?]
  -- A tensor without dimensions has a row without dimensions.
  rcases List.eq_nil_or_concat t.shape with none | ⟨batch, width, last⟩
  · rw [none]
    rfl
  · rw [last, List.concat_eq_append, List.dropLast_concat, List.getLast?_concat]
    dsimp only
    rw [List.drop_left]
    rfl

/-- The last dimension of a row is that of the tensor. -/
theorem width_row (t : Tensor α) (index : List Nat) : (t.row index).width? = t.width? := by
  rw [width?, shape_row]
  cases t.width? <;> rfl

/-- A row is a batch of its own without dimensions. -/
theorem batchShape_row (t : Tensor α) (index : List Nat) : (t.row index).batchShape = [] := by
  rw [batchShape, shape_row]
  cases t.width? <;> rfl

/-- The rows of columns are those that they are turned into. -/
theorem rows_ofColumns {shape : List Nat} (reach : ∀ column ∈ columns, column.length = Tensor.count shape) :
    (ofColumns shape columns).rows = transpose (Tensor.count shape) columns := by
  -- The rows are laid out one after the other, and cut again at the same width.
  have cut : chunks columns.length (transpose (Tensor.count shape) columns).length
      (transpose (Tensor.count shape) columns).flatten = transpose (Tensor.count shape) columns :=
    chunks_flatten fun row => length_of_mem_transpose
  rw [length_transpose reach] at cut
  rw [rows, ofColumns, ofRows, batchShape]
  dsimp only
  rw [List.dropLast_concat, List.getLastD_concat, cut]

/-- The row of columns that an index selects holds their entries in that row. -/
theorem row_ofColumns {shape index : List Nat}
    (reach : ∀ column ∈ columns, column.length = Tensor.count shape) (valid : IsIndex index shape) :
    (ofColumns shape columns).row index = ofColumns [] (columns.map (oneRow (offset shape index))) := by
  have inside := offset_lt valid
  -- The batch is the shape of the columns, so that the index is aligned with itself.
  have batch : (ofColumns shape columns).batchShape = shape := List.dropLast_concat
  have found : (transpose (Tensor.count shape) columns)[offset shape index]? =
      some ((transpose (Tensor.count shape) columns).getD (offset shape index) []) := by
    rw [← length_transpose reach] at inside
    rw [List.getElem?_eq_getElem inside, List.getD_eq_getElem _ _ inside]
  rw [row, batch, align_self valid, rows_ofColumns reach, ofColumns, ofColumns, ofRows, ofRows,
    Tensor.count, ← oneRow_transpose inside, oneRow_eq found, List.drop_left, List.length_map,
    List.flatten_singleton, List.nil_append]

end Tensor

end Clifford
