import Mathlib
import Clifford.Tensor.Basic

/-! Indices of tensors: their places in row-major order, and the rows that entries are cut into. -/

namespace Clifford.Tensor

variable {α : Type} {shape index : List Nat} {width : Nat}

/-- An index has a position below every size of a shape. -/
def IsIndex (index shape : List Nat) : Prop := List.Forall₂ (· < ·) index shape

/-- The place of an index in row-major order. -/
def offset : List Nat → List Nat → Nat
  | _ :: sizes, i :: index => i * count sizes + offset sizes index
  | _, _ => 0

/-- Places lie within the room of a shape. -/
theorem offset_lt (valid : IsIndex index shape) : offset shape index < count shape := by
  -- The slice of a position ends before the slice of the next position begins.
  induction valid with
  | nil => exact Nat.one_pos
  | @cons i size index sizes below _ ih =>
    calc i * count sizes + offset sizes index < (i + 1) * count sizes := by
          rw [Nat.add_mul, Nat.one_mul]
          exact Nat.add_lt_add_left ih _
      _ ≤ size * count sizes := Nat.mul_le_mul_right _ below

/-- Every place within the room of a shape is that of an index. -/
theorem exists_index {k : Nat} (inside : k < count shape) :
    ∃ index, IsIndex index shape ∧ offset shape index = k := by
  induction shape generalizing k with
  | nil => exact ⟨[], .nil, (Nat.lt_one_iff.mp inside).symm⟩
  | cons size sizes ih =>
    -- The first position is the quotient by the room of a slice, and the remainder is the place in
    -- it.
    have room : 0 < count sizes := Nat.pos_of_mul_pos_left (Nat.zero_lt_of_lt inside)
    obtain ⟨index, valid, place⟩ := ih (Nat.mod_lt k room)
    refine ⟨k / count sizes :: index, .cons ((Nat.div_lt_iff_lt_mul room).mpr inside) valid, ?_⟩
    rw [offset, place]
    exact Nat.div_add_mod' k (count sizes)

/-- The entries of rows of one width, one row after the other. -/
theorem getElem?_flatten {rows : List (List α)} (widths : ∀ row ∈ rows, row.length = width) (i : Nat)
    {j : Nat} (inside : j < width) : rows.flatten[i * width + j]? = rows[i]?.bind (·[j]?) := by
  -- The first row is either the one that is looked for, or it is skipped as a whole.
  induction rows generalizing i with
  | nil => simp
  | cons row rest ih =>
    have first : row.length = width := widths row (by simp)
    rw [List.flatten_cons]
    cases i with
    | zero => simp [List.getElem?_append_left, first, inside]
    | succ i =>
      have place : (i + 1) * width + j - row.length = i * width + j := by
        rw [Nat.add_mul, Nat.one_mul, first]
        omega
      rw [List.getElem?_append_right (by rw [Nat.add_mul, Nat.one_mul, first]; omega), place,
        ih (fun other member => widths other (List.mem_cons_of_mem _ member)), List.getElem?_cons_succ]

/-- Entries are cut into as many rows as asked for. -/
theorem length_chunks (count : Nat) (entries : List α) :
    (chunks width count entries).length = count := by
  induction count generalizing entries with
  | zero => rfl
  | succ count ih => rw [chunks, List.length_cons, ih]

/-- A row holds the entries from its place on. -/
theorem getElem?_chunks {count i : Nat} (inside : i < count) (entries : List α) :
    (chunks width count entries)[i]? = some ((entries.drop (i * width)).take width) := by
  -- A later row is a row of what follows the first one.
  induction count generalizing entries i with
  | zero => omega
  | succ count ih =>
    rw [chunks]
    cases i with
    | zero => simp
    | succ i =>
      rw [List.getElem?_cons_succ, ih (by omega), List.drop_drop, Nat.add_mul, Nat.one_mul,
        Nat.add_comm width]

/-- Rows have their width where there are enough entries. -/
theorem length_of_mem_chunks {count : Nat} {entries : List α} (full : entries.length = count * width) :
    ∀ row ∈ chunks width count entries, row.length = width := by
  -- The first row takes its width off the entries, and enough of them are left.
  induction count generalizing entries with
  | zero => simp [chunks]
  | succ count ih =>
    rw [Nat.add_mul, Nat.one_mul] at full
    rw [chunks, List.forall_mem_cons]
    exact ⟨by simp [full], ih (by simp [full])⟩

/-- Rows of one width are cut out of their entries again. -/
theorem chunks_flatten {rows : List (List α)} (widths : ∀ row ∈ rows, row.length = width) :
    chunks width rows.length rows.flatten = rows := by
  -- The first cut is made where the first row ends.
  induction rows with
  | nil => rfl
  | cons row rest ih =>
    have first : row.length = width := widths row (by simp)
    rw [List.length_cons, chunks, List.flatten_cons, ← first, List.take_left, List.drop_left, first,
      ih fun other member => widths other (List.mem_cons_of_mem _ member)]

/-- A tensor has as many entries as its shape has room for. -/
def Full (t : Tensor α) : Prop := t.entries.length = count t.shape

/-- A shape has room for one entry in a row, for every row. -/
theorem count_append (batch : List Nat) (width : Nat) : count (batch ++ [width]) = count batch * width := by
  induction batch with
  | nil => simp [count]
  | cons size sizes ih => rw [List.cons_append, count, ih, count, Nat.mul_assoc]

/-- The last dimension of a shape is what follows its batch. -/
theorem shape_eq {t : Tensor α} (found : t.width? = some width) : t.shape = t.batchShape ++ [width] :=
  (List.dropLast_append_getLast? width found).symm

/-- The size of the last dimension. -/
theorem getLastD_shape {t : Tensor α} (found : t.width? = some width) : t.shape.getLastD 0 = width := by
  rw [shape_eq found, List.getLastD_concat]

/-- A tensor has as many rows as its batch has room for. -/
theorem length_rows (t : Tensor α) : t.rows.length = count t.batchShape := length_chunks _ _

/-- The rows of a full tensor have its width. -/
theorem length_of_mem_rows {t : Tensor α} (full : t.Full) (found : t.width? = some width) :
    ∀ row ∈ t.rows, row.length = width := by
  -- The entries of a full tensor are just enough for the rows of its batch.
  rw [rows, getLastD_shape found]
  refine length_of_mem_chunks ?_
  rw [full, shape_eq found, count_append]

end Clifford.Tensor
