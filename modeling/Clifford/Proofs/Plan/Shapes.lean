import Clifford.Proofs.Outcome
import Clifford.Proofs.Plan.Batch
import Clifford.Proofs.Tensor.Stages

/-! Shapes of columns: an evaluation that combines the columns of the inputs in the shapes they have, and
that broadcasts a term to the batch only where it is complete, gives what the evaluation of broadcast
columns gives. -/

namespace Clifford

open Result Tensor

namespace Tensor

variable {α : Type} {shape : List Nat}

/-- Two tensors combined entry by entry over the shape that both of them broadcast to. -/
def combine (f : α → α → α) (s t : Tensor α) : Result (Tensor α) := do
  let common ← broadcastShape s.shape t.shape
  return ⟨common, List.zipWith f (broadcastEntries s.shape common s.entries)
    (broadcastEntries t.shape common t.entries)⟩

/-- A tensor broadcasts to a batch, where it is a column. -/
structure Fills (shape : List Nat) (t : Tensor α) (column : List α) : Prop where
  full : t.Full
  fits : FitsEnd t.shape.reverse shape.reverse
  column : broadcastEntries t.shape shape t.entries = column

variable {s t : Tensor α} {xs ys : List α}

/-- A column of a batch is a tensor of its shape. -/
theorem fills_column (reach : xs.length = count shape) : Fills shape ⟨shape, xs⟩ xs :=
  ⟨reach, .refl _, broadcastEntries_self reach⟩

/-- A function of a tensor is that of its column. -/
theorem Fills.map (fills : t.Fills shape xs) (f : α → α) : (t.map f).Fills shape (xs.map f) :=
  ⟨by rw [Full, Tensor.map, List.length_map, fills.full], fills.fits,
    (broadcastEntries_map fills.fits f fills.full).trans (congrArg (List.map f) fills.column)⟩

/-- A column has an entry for every row of the batch. -/
theorem Fills.length (fills : t.Fills shape xs) : xs.length = count shape :=
  fills.column ▸ length_broadcastEntries fills.fits.broadcasts fills.full

/-- Tensors that broadcast to a batch can be combined, which combines their columns. -/
theorem Fills.combine (left : s.Fills shape xs) (right : t.Fills shape ys) (f : α → α → α) :
    ∃ r, s.combine f t = .ok r ∧ r.Fills shape (List.zipWith f xs ys) := by
  obtain ⟨common, both, fits⟩ := exists_broadcastShape left.fits right.fits
  obtain ⟨first, second⟩ := fits_broadcastShape both
  have length := length_broadcastEntries first.broadcasts left.full
  have length' := length_broadcastEntries second.broadcasts right.full
  refine ⟨_, by rw [Tensor.combine, both]; rfl, ?_, fits, ?_⟩
  · rw [Full, List.length_zipWith, length, length', Nat.min_self]
  · -- Each of the tensors gets to the batch by way of the common shape.
    rw [broadcastEntries_zipWith fits f length length',
      broadcastEntries_trans first fits left.full, broadcastEntries_trans second fits right.full]
    exact congrArg₂ (List.zipWith f) left.column right.column

end Tensor

/-! The evaluation in shapes of their own. -/

namespace Shaped

variable {κ α : Type}

/-- Gives tensors to consecutive ids. -/
def assign (values : Nat → Option (Tensor α)) (base : Nat) (tensors : List (Tensor α)) :
    Nat → Option (Tensor α) := fun id =>
  if base ≤ id ∧ id - base < tensors.length then tensors[id - base]? else values id

/-- Multiplies one more power into a coefficient and a tensor. -/
def mulPower (ar : Arithmetic κ α) (values : Nat → Option (Tensor α))
    (product : κ × Option (Tensor α)) (p : Power) : Result (κ × Option (Tensor α)) := do
  let (coefficient, tensor?) := product
  match ar.constantPower? p.id p.degree with
  | some power => return (ar.mulCoefficient coefficient (← power), tensor?)
  | none =>
    match values p.id with
    | none => throw .unknownName
    | some base =>
      let factor := base.map (← ar.power p.degree)
      match tensor? with
      | none => return (coefficient, some factor)
      | some t => return (coefficient, some (← t.combine ar.mul factor))

/-- The tensor of a monomial, which only fills the batch if no power has a shape. -/
def monomial (ar : Arithmetic κ α) (shape : List Nat) (values : Nat → Option (Tensor α))
    (m : Monomial) : Result (Tensor α) := do
  let (coefficient, tensor?) ← m.powers.foldlM (mulPower ar values) (← ar.ofRat m.coefficient, none)
  match tensor? with
  | none => return ⟨shape, List.replicate (count shape) (← ar.constant coefficient)⟩
  | some t => return t.map fun x => ar.mul x (ar.embed coefficient)

/-- Adds the tensor of one more monomial. -/
def addMonomial (ar : Arithmetic κ α) (shape : List Nat) (values : Nat → Option (Tensor α))
    (total : Tensor α) (m : Monomial) : Result (Tensor α) := do
  total.combine ar.add (← monomial ar shape values m)

/-- The tensor of a sum of monomials, of which there has to be one. -/
def monomials (ar : Arithmetic κ α) (shape : List Nat) (values : Nat → Option (Tensor α)) :
    List Monomial → Result (Tensor α)
  | [] => .error .emptyFold
  | m :: rest => do rest.foldlM (addMonomial ar shape values) (← monomial ar shape values m)

/-- The column of a term, broadcast to the batch behind the deferred function. -/
def term (ar : Arithmetic κ α) (shape : List Nat) (values : Nat → Option (Tensor α)) (a : Multivector)
    (t : Term) : Result (List α) := do
  let total ← monomials ar shape values t.monomials
  return broadcastEntries total.shape shape (← ar.applyDeferred a total.entries)

/-- The columns of the terms of a multivector. -/
def terms (ar : Arithmetic κ α) (shape : List Nat) (values : Nat → Option (Tensor α))
    (a : Multivector) : Result (List (List α)) :=
  a.terms.mapM (term ar shape values a)

/-- The columns of all blades of a space, where a blade without a term is zero. -/
def denseColumns (ar : Arithmetic κ α) (dim : Nat) (shape : List Nat)
    (values : Nat → Option (Tensor α)) (a : Multivector) : Result (List (List α)) := do
  let columns := a.elements.zip (← terms ar shape values a)
  if columns.any fun c => dim ≤ c.1 then throw .indexRange
  return (List.range dim).map fun blade =>
    (columns.reverse.lookup blade).getD (List.replicate (count shape) ar.zero)

/-- Runs one step of a plan. -/
def step (I : Interpretation κ α) (shape : List Nat) (values : Nat → Option (Tensor α)) :
    Step → Result (Nat → Option (Tensor α))
  | .value base a => do
    return assign values base ((← terms I.toArithmetic shape values a).map (⟨shape, ·⟩))
  | .block base function arg elements => do
    let columns ← denseColumns I.toArithmetic I.dim shape values arg
    let rows ← I.function function (transpose (count shape) columns)
    return assign values base
      (elements.map fun blade => ⟨shape, rows.map fun row => row.getD blade I.zero⟩)

/-- The columns of the outputs of a plan from the tensors of its inputs. -/
def run (I : Interpretation κ α) (p : Plan) (shape : List Nat) (inputs : List (Tensor α)) :
    Result (List (List (List α))) := do
  let values ← p.steps.foldlM (step I shape) (assign (fun _ => none) 0 inputs)
  p.outputs.mapM (terms I.toArithmetic shape values)

/-- The fields of an input in the shape of its batch. -/
def fields (t : Tensor α) : List (Tensor α) :=
  (List.range (t.shape.getLastD 0)).map fun i => ⟨t.batchShape, t.rows.filterMap (·[i]?)⟩

/-- The outputs of a plan on input tensors whose batches broadcast. -/
def evaluate (p : Plan) (I : Interpretation κ α) (inputs : List (Tensor α)) :
    Result (List (NumericMultivector α)) := do
  p.requireInputs inputs
  let shape ← broadcastShapes (inputs.map batchShape)
  return p.gather shape (← run I p shape (inputs.flatMap fields))

/-- Values that broadcast to the columns of a batch. -/
def Spread (shape : List Nat) (values : Nat → Option (Tensor α)) (columns : Values α) : Prop :=
  ∀ id, Option.Rel (Fills shape) (values id) (columns id)

variable {shape : List Nat} {values : Nat → Option (Tensor α)} {columns : Values α}

/-- A coefficient with a tensor that broadcasts to a column. -/
inductive SpreadProduct (shape : List Nat) : κ × Option (Tensor α) → κ × Option (List α) → Prop
  | mk {coefficient : κ} {tensor? : Option (Tensor α)} {column? : Option (List α)}
      (rel : Option.Rel (Fills shape) tensor? column?) :
      SpreadProduct shape (coefficient, tensor?) (coefficient, column?)

/-- Values of a batch have an entry for every row of it. -/
theorem Spread.reach (spread : Spread shape values columns) : columns.Reach (count shape) := by
  intro id column found
  have value := spread id
  rw [found] at value
  generalize values id = tensor? at value
  cases value with
  | some fills => exact fills.length

/-- Tensors that are assigned broadcast to the columns that are assigned. -/
theorem Spread.assign (spread : Spread shape values columns) (base : Nat) {tensors : List (Tensor α)}
    {news : List (List α)} (each : List.Forall₂ (Fills shape) tensors news) :
    Spread shape (assign values base tensors) (columns.assign base news) := by
  intro id
  rw [Shaped.assign, Values.assign, each.length_eq]
  split
  · rename_i inside
    -- A new id has the tensor and the column of one place.
    obtain ⟨-, small⟩ := inside
    rw [List.getElem?_eq_getElem small, List.getElem?_eq_getElem (each.length_eq ▸ small)]
    exact .some (each.get _ small)
  · exact spread id

/-- Powers are multiplied in their shapes as they are in the batch. -/
theorem mulPower_alike (ar : Arithmetic κ α) (spread : Spread shape values columns) (p : Power)
    {product : κ × Option (Tensor α)} {product' : κ × Option (List α)}
    (related : SpreadProduct shape product product') :
    Alike (SpreadProduct shape) (mulPower ar values product p) (ar.mulPower columns product' p) := by
  obtain ⟨rel⟩ := related
  simp only [mulPower, Arithmetic.mulPower]
  cases ar.constantPower? p.id p.degree with
  | some power => exact .after power fun x _ => .ok ⟨rel⟩
  | none =>
    -- An id has a tensor where it has a column.
    generalize values p.id = tensor?, columns p.id = column?, spread p.id = value
    cases value with
    | none => exact .error _
    | some own =>
      refine .after (ar.power p.degree) fun f _ => ?_
      have factor := own.map f
      cases rel with
      | none => exact .ok ⟨.some factor⟩
      | some before =>
        obtain ⟨both, combined, fills⟩ := before.combine factor ar.mul
        dsimp only
        rw [combined]
        exact .ok ⟨.some fills⟩

/-- Monomials are evaluated in their shapes as they are in the batch. -/
theorem monomial_alike (ar : Arithmetic κ α) (spread : Spread shape values columns) (m : Monomial) :
    Alike (Fills shape) (monomial ar shape values m) (ar.monomial (count shape) columns m) := by
  refine .after (ar.ofRat m.coefficient) fun q _ => ?_
  refine (Alike.foldlM (S := SpreadProduct shape) (fun p c d related => mulPower_alike ar spread p related)
    m.powers ⟨.none⟩).bind ?_
  rintro _ _ ⟨rel⟩
  -- Without a power that has a shape, the coefficient fills the batch.
  cases rel with
  | none => exact .after _ fun x _ => .ok (fills_column List.length_replicate)
  | some fills => exact .ok (fills.map _)

/-- Sums of monomials are evaluated in their shapes as they are in the batch. -/
theorem monomials_alike (ar : Arithmetic κ α) (spread : Spread shape values columns)
    (ms : List Monomial) :
    Alike (Fills shape) (monomials ar shape values ms) (ar.monomials (count shape) columns ms) := by
  cases ms with
  | nil => exact .error _
  | cons m rest =>
    refine (monomial_alike ar spread m).bind fun t xs first => ?_
    refine .foldlM (fun n s ys before => ?_) rest first
    rw [addMonomial, Arithmetic.addMonomial]
    refine (monomial_alike ar spread n).bind fun r zs next => ?_
    obtain ⟨both, combined, fills⟩ := before.combine next ar.add
    rw [combined]
    exact .ok fills

/-- Terms that are broadcast where they are complete have the columns of the batch. -/
theorem terms_eq (ar : Arithmetic κ α) (spread : Spread shape values columns) (a : Multivector) :
    terms ar shape values a = ar.terms (count shape) columns a := by
  rw [terms, Arithmetic.terms]
  congr 1
  funext t
  refine ((monomials_alike ar spread t.monomials).bind (S := Eq) fun total xs fills => ?_).eq
  rw [Arithmetic.applyDeferred, Arithmetic.applyDeferred]
  split
  · exact .ok fills.column
  · -- The deferred function is taken entry by entry, before or behind the broadcast.
    cases ar.ofRat a.opScale with
    | error cause => exact .error cause
    | ok q => exact .ok (fills.map _).column

/-- The columns of all blades of a space are those of the batch. -/
theorem denseColumns_eq (ar : Arithmetic κ α) (dim : Nat) (spread : Spread shape values columns)
    (a : Multivector) :
    denseColumns ar dim shape values a = ar.denseColumns dim (count shape) columns a := by
  rw [denseColumns, Arithmetic.denseColumns, terms_eq ar spread]

/-- Columns of a batch are tensors of its shape. -/
theorem fills_columns {news : List (List α)} (reach : Reach (count shape) news) :
    List.Forall₂ (Fills shape) (news.map (⟨shape, ·⟩)) news := by
  rw [List.forall₂_map_left_iff, List.forall₂_same]
  exact fun column inside => fills_column (reach column inside)

section Run

variable {I : Interpretation κ α}

/-- A step is run in the shapes of the inputs as it is in the batch. -/
theorem step_alike (rowWise : I.RowWise) (spread : Spread shape values columns) (next : Step) :
    Alike (Spread shape) (step I shape values next) (I.step (count shape) columns next) := by
  cases next with
  | value base a =>
    rw [step, Interpretation.step, terms_eq _ spread]
    refine .after _ fun news made => .ok (spread.assign base ?_)
    exact fills_columns (Arithmetic.reach_terms spread.reach made)
  | block base function arg elements =>
    rw [step, Interpretation.step, denseColumns_eq _ _ spread]
    refine .after _ fun dense made => .after _ fun rows computed => .ok (spread.assign base ?_)
    -- The images of a batch have a row for each of its rows.
    have length : rows.length = count shape := (rowWise.length function _ rows computed).trans
      (length_transpose (Arithmetic.reach_denseColumns spread.reach made))
    rw [← Function.comp_def (Tensor.mk shape), ← List.map_map]
    refine fills_columns fun column inside => ?_
    obtain ⟨blade, -, rfl⟩ := List.mem_map.mp inside
    rw [List.length_map, length]

/-- A plan is run in the shapes of the inputs as it is in the batch. -/
theorem run_eq (rowWise : I.RowWise) (p : Plan) {inputs : List (Tensor α)} {news : List (List α)}
    (each : List.Forall₂ (Fills shape) inputs news) :
    run I p shape inputs = I.run p (count shape) news := by
  have start : Spread shape (fun _ => none) (fun _ => none : Values α) := fun _ => .none
  -- The steps keep that the tensors broadcast to the columns, of which the outputs are made.
  refine ((Alike.foldlM (fun next _ _ spread => step_alike rowWise spread next) p.steps
    (start.assign 0 each)).bind (S := Eq) fun values columns spread => ?_).eq
  rw [funext fun a => terms_eq I.toArithmetic spread a]
  exact .refl _

end Run

section Inputs

variable {t : Tensor α} {width : Nat}

/-- Entries that all rows have at one place are found before or behind a broadcast. -/
theorem broadcastEntries_filterMap {β γ : Type} {f : β → Option γ} {source : List Nat} {xs : List β}
    (fits : FitsEnd source.reverse shape.reverse) (full : xs.length = count source)
    (each : ∀ x ∈ xs, (f x).isSome) (each' : ∀ x ∈ broadcastEntries source shape xs, (f x).isSome) :
    broadcastEntries source shape (xs.filterMap f) = (broadcastEntries source shape xs).filterMap f := by
  have found {ys : List β} (all : ∀ y ∈ ys, (f y).isSome) : (ys.filterMap f).map some = ys.map f := by
    refine List.ext_getElem? fun k => ?_
    rw [List.getElem?_map, List.getElem?_map, Plan.getElem?_filterMap all]
    cases place : ys[k]? with
    | none => rfl
    | some y =>
      obtain ⟨z, own⟩ := Option.isSome_iff_exists.mp (all y (List.mem_of_getElem? place))
      simp [own]
  -- Nothing is left out, so that the entries are those of a function of the rows.
  refine List.map_injective_iff.mpr (Option.some_injective γ) ?_
  have length : (xs.filterMap f).length = count source := (Plan.length_filterMap each).trans full
  rw [← broadcastEntries_map fits some length, found each, found each', broadcastEntries_map fits f full]

/-- The fields of an input broadcast to its columns. -/
theorem fills_fields (full : t.Full) (found : t.width? = some width)
    (fits : FitsEnd t.batchShape.reverse shape.reverse) :
    List.Forall₂ (Fills shape) (fields t) (Plan.inputColumns shape t) := by
  rw [fields, Plan.inputColumns, List.forall₂_map_left_iff, List.forall₂_map_right_iff,
    List.forall₂_same]
  intro k inside
  rw [getLastD_shape found, List.mem_range] at inside
  have each : ∀ row ∈ t.rows, (row[k]?).isSome := by
    intro row member
    simpa [length_of_mem_rows full found row member] using inside
  have each' : ∀ row ∈ broadcastEntries t.batchShape shape t.rows, (row[k]?).isSome := by
    intro row member
    simpa [Plan.length_of_mem_broadcast full found fits.broadcasts row member] using inside
  exact ⟨(Plan.length_filterMap each).trans t.length_rows, fits,
    broadcastEntries_filterMap fits t.length_rows each each'⟩

end Inputs

end Shaped

/-- Plans are evaluated on a broadcast batch as they are in the shapes of the inputs: columns may be
combined in the shapes that they have, where terms are broadcast to the batch only when they are
complete. -/
theorem Plan.evaluate_eq_shaped {α : Type} [Elementary α] (A : Algebra) (p : Plan)
    {inputs : List (Tensor α)} (full : ∀ t ∈ inputs, t.Full) :
    p.evaluate A.floating inputs = Shaped.evaluate p A.floating inputs := by
  cases common : broadcastShapes (inputs.map batchShape) with
  | error cause =>
    -- Without a common batch, both fail behind the check of the inputs.
    rw [evaluate, Shaped.evaluate, requireInputs, common]
    cases inputs.mapM inputWidth with
    | error other => rfl
    | ok widths =>
      simp only [ok_bind]
      split <;> rfl
  | ok shape =>
    rw [evaluate_eq p _ common, Shaped.evaluate, common]
    cases accepted : p.requireInputs inputs with
    | error cause => rfl
    | ok _ =>
      have fits := (fits_foldlM_broadcastShape common).2
      have each : List.Forall₂ (Fills shape) (inputs.flatMap Shaped.fields)
          (inputs.flatMap (inputColumns shape)) := by
        have members : List.Forall₂ (fun s t => s = t ∧ s ∈ inputs) inputs inputs :=
          List.forall₂_same.mpr fun _ member => ⟨rfl, member⟩
        refine List.rel_flatMap members ?_
        rintro t _ ⟨rfl, member⟩
        obtain ⟨width, found⟩ := exists_width accepted member
        exact Shaped.fills_fields (full t member) found (fits _ (List.mem_map_of_mem member))
      rw [ok_bind, ok_bind, ok_bind, Shaped.run_eq A.floating_rowWise p each]

end Clifford
