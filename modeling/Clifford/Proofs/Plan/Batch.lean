import Clifford.Proofs.Dense.Rows

/-! Plans on tensors whose batches broadcast: the outputs at every index of the common batch are those of
the plan on the rows that the index selects, and the batch is refused where one of these is. -/

namespace Clifford

open Result Tensor

/-- The row of a numeric multivector that an index of its batch selects. -/
def NumericMultivector.row {α : Type} (a : NumericMultivector α) (index : List Nat) :
    NumericMultivector α :=
  ⟨a.elements, a.data.row index⟩

namespace Plan

variable {κ α : Type}

/-- A column of the entries that all rows have at one place. -/
theorem getElem?_filterMap {β γ : Type} {f : β → Option γ} {xs : List β}
    (each : ∀ x ∈ xs, (f x).isSome) (i : Nat) : (xs.filterMap f)[i]? = xs[i]?.bind f := by
  -- Nothing is left out, so that the places stay the same.
  induction xs generalizing i with
  | nil => simp
  | cons x xs ih =>
    obtain ⟨y, own⟩ := Option.isSome_iff_exists.mp (each x (by simp))
    rw [List.filterMap_cons_some own]
    cases i with
    | zero => simp [own]
    | succ i =>
      rw [List.getElem?_cons_succ, List.getElem?_cons_succ,
        ih fun other member => each other (List.mem_cons_of_mem _ member)]

/-- A column of the entries that all rows have at one place reaches all rows. -/
theorem length_filterMap {β γ : Type} {f : β → Option γ} {xs : List β}
    (each : ∀ x ∈ xs, (f x).isSome) : (xs.filterMap f).length = xs.length := by
  -- Every entry is counted.
  rw [List.length_filterMap_eq_countP, List.countP_eq_length]
  exact each

section Input

variable {t : Tensor α} {shape : List Nat} {width : Nat} (full : t.Full)
  (found : t.width? = some width) (broadcasts : Broadcasts t.batchShape shape)

include full found broadcasts

/-- The rows of a broadcast input are rows of the input. -/
theorem length_of_mem_broadcast :
    ∀ row ∈ broadcastEntries t.batchShape shape t.rows, row.length = width := by
  -- A broadcast entry stands at some index, where it is a row of the input.
  intro row inside
  obtain ⟨k, place⟩ := List.mem_iff_getElem?.mp inside
  obtain ⟨small, -⟩ := List.getElem?_eq_some_iff.mp place
  rw [length_broadcastEntries broadcasts t.length_rows] at small
  obtain ⟨index, valid, rfl⟩ := exists_index small
  rw [getElem?_broadcastEntries broadcasts t.length_rows valid] at place
  exact length_of_mem_rows full found row (List.mem_of_getElem? place)

/-- The columns of an input have an entry for every row of the batch. -/
theorem reach_inputColumns : Reach (count shape) (inputColumns shape t) := by
  -- A column has the entries that all rows have at its place.
  intro column inside
  obtain ⟨j, small, rfl⟩ := List.mem_map.mp inside
  rw [getLastD_shape found, List.mem_range] at small
  rw [length_filterMap, length_broadcastEntries broadcasts t.length_rows]
  intro row member
  simpa [length_of_mem_broadcast full found broadcasts row member] using small

/-- The columns of a row that an index selects are those of the input in this row. -/
theorem inputColumns_row {index : List Nat} (valid : IsIndex index shape) :
    inputColumns [] (t.row index) = (inputColumns shape t).map (oneRow (offset shape index)) := by
  have place := getElem?_broadcastEntries broadcasts t.length_rows valid
  have small := offset_lt valid
  rw [← length_broadcastEntries broadcasts t.length_rows] at small
  rw [List.getElem?_eq_getElem small] at place
  -- The row that is selected is found in the broadcast input at the place of the index.
  have selected : (t.row index).entries =
      (broadcastEntries t.batchShape shape t.rows)[offset shape index] := by
    rw [row, List.getD_eq_getElem?_getD, ← place, Option.getD_some]
  have length : (t.row index).entries.length = width := by
    rw [selected]
    exact length_of_mem_broadcast full found broadcasts _ (List.getElem_mem small)
  have rows : (t.row index).rows = [(t.row index).entries] := by
    rw [Tensor.rows, getLastD_shape ((t.width_row index).trans found), batchShape_row, count, chunks,
      ← length, List.take_length]
    rfl
  rw [inputColumns, inputColumns, getLastD_shape ((t.width_row index).trans found),
    getLastD_shape found, List.map_map]
  -- Each column has one entry in the row, as wide as the input is.
  refine List.map_congr_left fun j inside => ?_
  rw [batchShape_row, rows]
  show [(t.row index).entries].filterMap (·[j]?) = oneRow (offset shape index) (List.filterMap _ _)
  rw [oneRow, getElem?_filterMap, List.getElem?_eq_getElem small, Option.bind_some, selected,
    List.filterMap_cons]
  · cases (broadcastEntries t.batchShape shape t.rows)[offset shape index][j]? <;> rfl
  · intro row member
    simpa [length_of_mem_broadcast full found broadcasts row member] using List.mem_range.mp inside

end Input

/-- Whether inputs provide as many numbers as a plan expects. -/
def requireInputs (p : Plan) (inputs : List (Tensor α)) : Result Unit := do
  let found := (← inputs.mapM inputWidth).foldl (· + ·) 0
  if found ≠ p.inputSize then throw (.violation (.inputFields found p.inputSize))

/-- The outputs of a plan as tensors over a batch. -/
def gather (p : Plan) (shape : List Nat) (outputs : List (List (List α))) :
    List (NumericMultivector α) :=
  List.zipWith (fun a columns => ⟨a.elements, ofColumns shape columns⟩) p.outputs outputs

/-- A plan is run on the columns of its inputs, after these are checked. -/
theorem evaluate_eq (p : Plan) (I : Interpretation κ α) {inputs : List (Tensor α)} {shape : List Nat}
    (common : broadcastShapes (inputs.map batchShape) = .ok shape) :
    p.evaluate I inputs = (do
      p.requireInputs inputs
      return p.gather shape (← I.run p (count shape) (inputs.flatMap (inputColumns shape)))) := by
  -- The check of the inputs comes before anything that depends on the batch.
  rw [evaluate, requireInputs, common]
  cases inputs.mapM inputWidth with
  | error cause => rfl
  | ok widths =>
    simp only [ok_bind]
    split <;> rfl

/-- Inputs are refused for their number alone. -/
theorem requireInputs_ne_domain (p : Plan) (inputs : List (Tensor α)) (refusal : DomainError) :
    p.requireInputs inputs ≠ .error (.domain refusal) := by
  intro failed
  rcases bind_eq_error.mp failed with missing | ⟨widths, -, other⟩
  · obtain ⟨t, -, own⟩ := exists_of_mapM_error missing
    rw [inputWidth] at own
    split at own <;> cases own
  · dsimp only at other
    split at other <;> cases other

/-- The rows of inputs have as many numbers. -/
theorem requireInputs_row (p : Plan) (inputs : List (Tensor α)) (index : List Nat) :
    p.requireInputs (inputs.map (·.row index)) = p.requireInputs inputs := by
  -- The width of an input is that of its rows.
  have widths : (inputs.map (·.row index)).mapM inputWidth = inputs.mapM inputWidth := by
    rw [List.mapM_map]
    congr 1
    funext t
    simp only [inputWidth, Function.comp_apply, width_row]
  rw [requireInputs, requireInputs, widths]

/-- Rows have a common batch without dimensions. -/
theorem broadcastShapes_row (inputs : List (Tensor α)) (index : List Nat) :
    broadcastShapes ((inputs.map (·.row index)).map batchShape) = .ok [] := by
  -- No row has a dimension that could differ.
  rw [List.map_map, broadcastShapes]
  induction inputs with
  | nil => rfl
  | cons t rest ih =>
    rw [List.map_cons, List.foldlM_cons, Function.comp_apply, batchShape_row]
    exact ih

/-- The outputs at an index are gathered from the columns in its row. -/
theorem gather_row (p : Plan) {shape index : List Nat} {outputs : List (List (List α))}
    (reach : ∀ columns ∈ outputs, Reach (count shape) columns) (valid : IsIndex index shape) :
    (p.gather shape outputs).map (·.row index) =
      p.gather [] (outputs.map (List.map (oneRow (offset shape index)))) := by
  -- The outputs are paired with their columns one by one.
  rw [gather, gather]
  generalize p.outputs = symbolic
  induction symbolic generalizing outputs with
  | nil => rfl
  | cons a rest ih =>
    cases outputs with
    | nil => rfl
    | cons columns others =>
      obtain ⟨own, later⟩ := List.forall_mem_cons.mp reach
      rw [List.zipWith_cons_cons, List.map_cons, List.map_cons, List.zipWith_cons_cons, ih later,
        NumericMultivector.row, row_ofColumns own valid]

/-- The outputs of a plan are tensors over the batch. -/
theorem batchShape_of_mem_gather (p : Plan) {shape : List Nat} {outputs : List (List (List α))}
    {a : NumericMultivector α} (inside : a ∈ p.gather shape outputs) : a.data.batchShape = shape := by
  obtain ⟨k, found⟩ := List.mem_iff_getElem?.mp inside
  obtain ⟨symbolic, columns, -, -, rfl⟩ := List.getElem?_zipWith_eq_some.mp found
  exact List.dropLast_concat

/-- Accepted inputs have rows of some width. -/
theorem exists_width {p : Plan} {inputs : List (Tensor α)} (accepted : p.requireInputs inputs = .ok ())
    {t : Tensor α} (member : t ∈ inputs) : ∃ width, t.width? = some width := by
  obtain ⟨widths, sizes, -⟩ := bind_eq_ok.mp accepted
  obtain ⟨width, -, own⟩ := exists_of_mapM_mem sizes member
  rw [inputWidth] at own
  split at own
  · rename_i found
    exact ⟨_, found⟩
  · cases own

section Batch

variable {I : Interpretation κ α} {p : Plan} {inputs : List (Tensor α)} {shape : List Nat}
  (full : ∀ t ∈ inputs, t.Full) (common : broadcastShapes (inputs.map batchShape) = .ok shape)

include full common

/-- Accepted inputs have columns with an entry for every row, which for the rows at an index are the
entries of that row. -/
theorem columns_of_accepted {p : Plan} (accepted : p.requireInputs inputs = .ok ()) :
    Reach (count shape) (inputs.flatMap (inputColumns shape)) ∧
      ∀ index, IsIndex index shape → (inputs.map (·.row index)).flatMap (inputColumns []) =
        (inputs.flatMap (inputColumns shape)).map (oneRow (offset shape index)) := by
  have broadcasts := broadcasts_of_broadcastShapes common
  -- Both facts are those of a single input, taken together.
  constructor
  · intro column inside
    obtain ⟨t, member, own⟩ := List.mem_flatMap.mp inside
    obtain ⟨w, found⟩ := exists_width accepted member
    exact reach_inputColumns (full t member) found (broadcasts _ (List.mem_map_of_mem member)) column own
  · intro index valid
    rw [List.flatMap_map, List.map_flatMap]
    refine List.flatMap_congr fun t member => ?_
    obtain ⟨w, found⟩ := exists_width accepted member
    exact inputColumns_row (full t member) found (broadcasts _ (List.mem_map_of_mem member)) valid

/-- The outputs of a plan on the rows at an index come from its run on the columns in that row. -/
theorem evaluate_row (I : Interpretation κ α) {p : Plan} (accepted : p.requireInputs inputs = .ok ())
    {index : List Nat} (valid : IsIndex index shape) :
    p.evaluate I (inputs.map (·.row index)) =
      (I.run p 1 ((inputs.flatMap (inputColumns shape)).map (oneRow (offset shape index)))).map
        (p.gather []) := by
  -- The rows are accepted as the batch is, and their columns are rows of its columns.
  rw [evaluate_eq p I (broadcastShapes_row inputs index), requireInputs_row, accepted, ok_bind,
    (columns_of_accepted full common accepted).2 index valid]
  rfl

/-- A plan that is run row by row on columns is run row by row on tensors. -/
theorem evaluate_of_rowWise (rowWise : I.RowWise) :
    (∀ outputs, p.evaluate I inputs = .ok outputs →
      (∀ a ∈ outputs, a.data.batchShape = shape) ∧ ∀ index, IsIndex index shape →
        p.evaluate I (inputs.map (·.row index)) = .ok (outputs.map (·.row index))) ∧
    (0 < count shape → ((∃ refusal, p.evaluate I inputs = .error (.domain refusal)) ↔
      ∃ index, IsIndex index shape ∧
        ∃ refusal, p.evaluate I (inputs.map (·.row index)) = .error (.domain refusal))) := by
  cases accepted : p.requireInputs inputs with
  | error cause =>
    -- Inputs that do not fit the plan are refused alike, for another cause.
    have other (refusal : DomainError) : cause ≠ .domain refusal := fun same =>
      requireInputs_ne_domain p inputs refusal (same ▸ accepted)
    have batch : p.evaluate I inputs = .error cause := by
      rw [evaluate_eq p I common, accepted, error_bind]
    have rows (index : List Nat) : p.evaluate I (inputs.map (·.row index)) = .error cause := by
      rw [evaluate_eq p I (broadcastShapes_row inputs index), requireInputs_row, accepted, error_bind]
    refine ⟨fun outputs made => ?_, fun _ => ⟨?_, ?_⟩⟩
    · rw [batch] at made
      cases made
    · rintro ⟨refusal, failed⟩
      rw [batch] at failed
      exact absurd (Except.error.inj failed) (other refusal)
    · rintro ⟨index, -, refusal, failed⟩
      rw [rows] at failed
      exact absurd (Except.error.inj failed) (other refusal)
  | ok u =>
    -- The run on columns is row by row, and rows of columns are found at the places of indices.
    have run := rowWise.run p (count shape) (inputs.flatMap (inputColumns shape))
    have batch : p.evaluate I inputs =
        (I.run p (count shape) (inputs.flatMap (inputColumns shape))).map (p.gather shape) := by
      rw [evaluate_eq p I common, accepted, ok_bind]
      rfl
    refine ⟨fun outputs made => ?_, fun positive => ?_⟩
    · rw [batch] at made
      obtain ⟨columns, ran, rfl⟩ := map_eq_ok.mp made
      refine ⟨fun a => batchShape_of_mem_gather p, fun index valid => ?_⟩
      -- The outputs reach every row, so that rows of them are those of their columns.
      have reach := rowWise.reach_run (columns_of_accepted full common accepted).1 ran
      rw [evaluate_row full common I accepted valid,
        run.value columns ran _ (offset_lt valid), gather_row p reach valid]
      rfl
    · rw [batch]
      simp only [map_eq_error]
      rw [run.refused_iff positive]
      -- A row that is refused is the row of an index, and the other way round.
      constructor
      · rintro ⟨i, inside, refusal, refused⟩
        obtain ⟨index, valid, rfl⟩ := exists_index inside
        exact ⟨index, valid, refusal, by
          rw [evaluate_row full common I accepted valid, map_eq_error, refused]⟩
      · rintro ⟨index, valid, refusal, refused⟩
        rw [evaluate_row full common I accepted valid, map_eq_error] at refused
        exact ⟨_, offset_lt valid, refusal, refused⟩

end Batch

/-- Evaluation of a batch is row by row: where a plan has outputs, these hold at every index of the common
batch what the plan gives on the rows that the index selects, and a batch with rows is refused as
outside the domain of an operator exactly where one of its rows is. -/
theorem evaluate_rowWise [Elementary α] (A : Algebra) (p : Plan) {inputs : List (Tensor α)}
    {shape : List Nat} (full : ∀ t ∈ inputs, t.Full)
    (common : broadcastShapes (inputs.map batchShape) = .ok shape) :
    (∀ outputs, p.evaluate A.floating inputs = .ok outputs →
      (∀ a ∈ outputs, a.data.batchShape = shape) ∧ ∀ index, IsIndex index shape →
        p.evaluate A.floating (inputs.map (·.row index)) = .ok (outputs.map (·.row index))) ∧
    (0 < count shape → ((∃ refusal, p.evaluate A.floating inputs = .error (.domain refusal)) ↔
      ∃ index, IsIndex index shape ∧
        ∃ refusal, p.evaluate A.floating (inputs.map (·.row index)) = .error (.domain refusal))) :=
  evaluate_of_rowWise full common A.floating_rowWise

/-- Two inputs of different ranks, of which each is repeated along a dimension of the other one, under a
plan that multiplies their numbers. -/
theorem evaluate_rowWise_products :
    let A : Algebra := { metric := .diagonal ⟨2, 0, 0, by decide⟩ }
    let product : Multivector := { terms := [⟨0, [⟨1, [⟨0, 1⟩, ⟨1, 1⟩]⟩]⟩] }
    let output : Multivector := { terms := [⟨0, [⟨1, [⟨3, 1⟩]⟩]⟩, ⟨3, [⟨1, [⟨2, 2⟩]⟩]⟩] }
    let p : Plan := ⟨[.value 3 product], [output], 3, 4⟩
    let inputs : List (Tensor Float) := [⟨[2, 1, 1], [1, 2]⟩, ⟨[3, 2], [3, 4, 5, 6, 7, 8]⟩]
    (∀ t ∈ inputs, t.Full) ∧ broadcastShapes (inputs.map batchShape) = .ok [2, 3] ∧
      (∃ outputs, p.evaluate A.floating inputs = .ok outputs ∧
        p.evaluate A.floating (inputs.map (·.row [1, 2])) = .ok (outputs.map (·.row [1, 2]))) ∧
      ((∃ refusal, p.evaluate A.floating inputs = .error (.domain refusal)) ↔
        ∃ index, IsIndex index [2, 3] ∧
          ∃ refusal, p.evaluate A.floating (inputs.map (·.row index)) = .error (.domain refusal)) := by
  intro A product output p inputs
  have full : ∀ t ∈ inputs, t.Full := by simp [inputs, Full, count]
  have common : broadcastShapes (inputs.map batchShape) = .ok [2, 3] := rfl
  have valid : IsIndex [1, 2] [2, 3] := .cons (by decide) (.cons (by decide) .nil)
  -- That the plan runs is evaluated; what it gives follows from the theorem.
  have evaluates : (p.evaluate A.floating inputs).isOk = true := by decide +kernel
  obtain ⟨outputs, made⟩ : ∃ outputs, p.evaluate A.floating inputs = .ok outputs := by
    cases made : p.evaluate A.floating inputs with
    | ok outputs => exact ⟨outputs, rfl⟩
    | error cause =>
      rw [made] at evaluates
      cases evaluates
  obtain ⟨rows, refused⟩ := evaluate_rowWise A p full common
  exact ⟨full, common, ⟨outputs, made, (rows outputs made).2 _ valid⟩, refused (by decide)⟩

end Plan

end Clifford
