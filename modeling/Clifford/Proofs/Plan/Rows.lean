import Clifford.Plan.Evaluate
import Clifford.Proofs.RowWise
import Clifford.Proofs.Tensor.Row

/-! Plans run row by row: what a plan computes in a row of a batch is what it computes in a batch of that
row alone, if that holds of its exponentials and logarithms. -/

namespace Clifford

open Result

/-- The columns of one row. -/
def Values.oneRow {α : Type} (i : Nat) (values : Values α) : Values α :=
  fun id => (values id).map (Clifford.oneRow i)

/-- Columns are assigned row by row. -/
theorem Values.oneRow_assign {α : Type} (i : Nat) (values : Values α) (base : Nat)
    (columns : List (List α)) :
    (values.assign base columns).oneRow i =
      (values.oneRow i).assign base (columns.map (Clifford.oneRow i)) := by
  -- Whether an id is assigned does not depend on the rows.
  funext id
  rw [oneRow, assign, assign, List.length_map]
  split
  · rw [List.getElem?_map]
  · rfl

namespace Arithmetic

variable {κ α : Type} (ar : Arithmetic κ α) {count i : Nat} (inside : i < count) (values : Values α)

/-- A product with a column, in one row. -/
def oneRowProduct (i : Nat) (product : κ × Option (List α)) : κ × Option (List α) :=
  (product.1, product.2.map (oneRow i))

/-- Powers are multiplied row by row. -/
theorem mulPower_oneRow (product : κ × Option (List α)) (p : Power) :
    ar.mulPower (values.oneRow i) (oneRowProduct i product) p =
      (ar.mulPower values product p).map (oneRowProduct i) := by
  -- Whether a power succeeds does not depend on the rows either.
  obtain ⟨coefficient, column?⟩ := product
  simp only [mulPower, oneRowProduct, Values.oneRow]
  cases ar.constantPower? p.id p.degree with
  | some power => cases power <;> rfl
  | none =>
    cases values p.id with
    | none => rfl
    | some base =>
      cases ar.power p.degree with
      | error cause => rfl
      | ok f =>
        cases column? with
        | none => simp [oneRowProduct, Except.map]
        | some column => simp [oneRowProduct, Except.map]

include inside

/-- Monomials are evaluated row by row. -/
theorem monomial_oneRow (m : Monomial) :
    ar.monomial 1 (values.oneRow i) m = (ar.monomial count values m).map (oneRow i) := by
  rw [monomial, monomial]
  cases ar.ofRat m.coefficient with
  | error cause => rfl
  | ok q =>
    rw [ok_bind, ok_bind]
    -- The powers are multiplied row by row, and so is the coefficient behind them.
    have folded : m.powers.foldlM (ar.mulPower (values.oneRow i)) (q, none) =
        (m.powers.foldlM (ar.mulPower values) (q, none)).map (oneRowProduct i) :=
      foldlM_map (mulPower_oneRow ar values) m.powers (q, none)
    rw [folded]
    cases m.powers.foldlM (ar.mulPower values) (q, none) with
    | error cause => rfl
    | ok product =>
      obtain ⟨coefficient, _ | column⟩ := product
      · show (do return List.replicate 1 (← ar.constant coefficient)) =
          Except.map (oneRow i) (do return List.replicate count (← ar.constant coefficient))
        cases ar.constant coefficient with
        | error cause => rfl
        | ok x => exact congrArg Except.ok (oneRow_replicate inside x).symm
      · exact congrArg Except.ok (oneRow_map i _ column).symm

/-- Sums of monomials are evaluated row by row. -/
theorem monomials_oneRow (ms : List Monomial) :
    ar.monomials 1 (values.oneRow i) ms = (ar.monomials count values ms).map (oneRow i) := by
  -- The first monomial gives a column, to which the others are added.
  cases ms with
  | nil => rfl
  | cons m rest =>
    rw [monomials, monomials, monomial_oneRow ar inside]
    cases ar.monomial count values m with
    | error cause => rfl
    | ok column =>
      refine foldlM_map (fun column m => ?_) rest column
      rw [addMonomial, addMonomial, monomial_oneRow ar inside]
      cases ar.monomial count values m with
      | error cause => rfl
      | ok other => exact congrArg Except.ok (oneRow_zipWith i ar.add column other).symm

/-- The terms of a multivector are evaluated row by row. -/
theorem terms_oneRow (a : Multivector) :
    ar.terms 1 (values.oneRow i) a = (ar.terms count values a).map (List.map (oneRow i)) := by
  -- The sum of each term is taken first, and a deferred function behind it.
  refine mapM_map (fun t => ?_) a.terms
  rw [monomials_oneRow ar inside]
  cases ar.monomials count values t.monomials with
  | error cause => rfl
  | ok column =>
    show ar.applyDeferred a (oneRow i column) = (ar.applyDeferred a column).map (oneRow i)
    rw [applyDeferred, applyDeferred]
    split
    · rfl
    · cases ar.ofRat a.opScale with
      | error cause => rfl
      | ok q => exact congrArg Except.ok (oneRow_map i _ column).symm

omit inside in
/-- A table of columns is looked up row by row. -/
theorem lookup_oneRow (i blade : Nat) (columns : List (Nat × List α)) :
    (columns.map fun c => (c.1, oneRow i c.2)).lookup blade =
      (columns.lookup blade).map (oneRow i) := by
  -- The keys are the same.
  induction columns with
  | nil => rfl
  | cons c rest ih =>
    rw [List.map_cons, List.lookup_cons, List.lookup_cons, ih]
    cases blade == c.1 <;> rfl

/-- The columns of all blades are evaluated row by row. -/
theorem denseColumns_oneRow (dim : Nat) (a : Multivector) :
    ar.denseColumns dim 1 (values.oneRow i) a =
      (ar.denseColumns dim count values a).map (List.map (oneRow i)) := by
  rw [denseColumns, denseColumns, terms_oneRow ar inside]
  cases ar.terms count values a with
  | error cause => rfl
  | ok columns =>
    -- The table by blade and the check of the space are those of all rows.
    have zipped : a.elements.zip (columns.map (oneRow i)) =
        (a.elements.zip columns).map fun c => (c.1, oneRow i c.2) := by
      rw [List.zip_map_right]
      rfl
    have outside : ((a.elements.zip (columns.map (oneRow i))).any fun c => dim ≤ c.1) =
        (a.elements.zip columns).any fun c => dim ≤ c.1 := by
      rw [zipped, List.any_map]
      rfl
    simp only [Except.map, ok_bind, outside]
    split
    · rfl
    · refine congrArg Except.ok ?_
      rw [List.map_map]
      refine List.map_congr_left fun blade _ => ?_
      rw [zipped, ← List.map_reverse, lookup_oneRow, Function.comp_apply]
      cases (a.elements.zip columns).reverse.lookup blade with
      | some column => rfl
      | none => exact (oneRow_replicate inside ar.zero).symm

end Arithmetic

/-- Columns with an entry for every row. -/
def Reach {α : Type} (count : Nat) (columns : List (List α)) : Prop :=
  ∀ column ∈ columns, column.length = count

/-- Every column that has been assigned has an entry for every row. -/
def Values.Reach {α : Type} (count : Nat) (values : Values α) : Prop :=
  ∀ id column, values id = some column → column.length = count

/-- Columns that are assigned keep an entry for every row. -/
theorem Values.Reach.assign {α : Type} {count : Nat} {values : Values α} (reach : values.Reach count)
    {columns : List (List α)} (all : Clifford.Reach count columns) (base : Nat) :
    (values.assign base columns).Reach count := by
  -- A column is one of the new ones or an old one.
  intro id column found
  rw [Values.assign] at found
  split at found
  · exact all column (List.mem_of_getElem? found)
  · exact reach id column found

namespace Arithmetic

variable {κ α : Type} {ar : Arithmetic κ α} {count : Nat} {values : Values α}

/-- A product with a column that reaches all rows stays so with another power. -/
theorem length_mulPower (reach : values.Reach count) {product next : κ × Option (List α)} {p : Power}
    (before : ∀ column, product.2 = some column → column.length = count)
    (made : ar.mulPower values product p = .ok next) :
    ∀ column, next.2 = some column → column.length = count := by
  obtain ⟨coefficient, column?⟩ := product
  simp only [mulPower] at made
  split at made
  · -- The power of a constant goes into the coefficient.
    obtain ⟨power, -, done⟩ := bind_eq_ok.mp made
    cases done
    exact before
  · split at made
    · cases made
    · rename_i base found
      obtain ⟨f, -, done⟩ := bind_eq_ok.mp made
      have length := reach p.id base found
      -- The first power of an indeterminate starts the column, and any other one is multiplied into it.
      cases column? with
      | none =>
        cases done
        rintro column ⟨⟩
        rw [List.length_map, length]
      | some old =>
        cases done
        rintro column ⟨⟩
        rw [List.length_zipWith, before old rfl, List.length_map, length, Nat.min_self]

/-- Monomials have a value in every row. -/
theorem length_monomial (reach : values.Reach count) {m : Monomial} {column : List α}
    (made : ar.monomial count values m = .ok column) : column.length = count := by
  obtain ⟨q, -, rest⟩ := bind_eq_ok.mp made
  obtain ⟨⟨coefficient, column?⟩, run, done⟩ := bind_eq_ok.mp rest
  have kept : ∀ c, column? = some c → c.length = count :=
    foldlM_keeps (P := fun product : κ × Option (List α) => ∀ c, product.2 = some c → c.length = count)
      (fun _ _ _ _ => length_mulPower reach) (by simp) run
  -- Without a column the coefficient is repeated for every row.
  cases column? with
  | none =>
    obtain ⟨x, -, done⟩ := bind_eq_ok.mp done
    cases done
    exact List.length_replicate
  | some c =>
    cases done
    rw [List.length_map, kept c rfl]

/-- Sums of monomials have a value in every row. -/
theorem length_monomials (reach : values.Reach count) {ms : List Monomial} {column : List α}
    (made : ar.monomials count values ms = .ok column) : column.length = count := by
  cases ms with
  | nil => cases made
  | cons m rest =>
    obtain ⟨first, start, run⟩ := bind_eq_ok.mp made
    -- Every monomial that is added has as many rows as the sum so far.
    refine foldlM_keeps (P := fun column : List α => column.length = count)
      (fun m _ column next before step => ?_) (length_monomial reach start) run
    obtain ⟨other, made, done⟩ := bind_eq_ok.mp step
    cases done
    rw [List.length_zipWith, before, length_monomial reach made, Nat.min_self]

/-- The terms of a multivector have a value in every row. -/
theorem reach_terms (reach : values.Reach count) {a : Multivector} {columns : List (List α)}
    (made : ar.terms count values a = .ok columns) : Reach count columns := by
  intro column inside
  obtain ⟨t, -, own⟩ := exists_of_mem_mapM made inside
  obtain ⟨sum, added, applied⟩ := bind_eq_ok.mp own
  have length := length_monomials reach added
  rw [applyDeferred] at applied
  split at applied
  · cases applied
    exact length
  · obtain ⟨q, -, done⟩ := bind_eq_ok.mp applied
    cases done
    rw [List.length_map, length]

/-- The columns of all blades have a value in every row. -/
theorem reach_denseColumns (reach : values.Reach count) {dim : Nat} {a : Multivector}
    {columns : List (List α)} (made : ar.denseColumns dim count values a = .ok columns) :
    Reach count columns := by
  -- A blade has the column of its term, or zeros for all rows.
  obtain ⟨terms, evaluated, rest⟩ := bind_eq_ok.mp made
  have all := reach_terms reach evaluated
  simp only at rest
  split at rest
  · cases rest
  · cases rest
    intro column inside
    obtain ⟨blade, -, rfl⟩ := List.mem_map.mp inside
    cases found : (a.elements.zip terms).reverse.lookup blade with
    | none => exact List.length_replicate
    | some own =>
      obtain ⟨before, after, table, -⟩ := List.lookup_eq_some_iff.mp found
      have member : (blade, own) ∈ a.elements.zip terms := List.mem_reverse.mp (by simp [table])
      exact all own (List.of_mem_zip member).2

end Arithmetic

namespace Interpretation

variable {κ α : Type}

/-- Exponentials and logarithms of a batch are those of its rows. -/
structure RowWise (I : Interpretation κ α) : Prop where
  single : ∀ f count rows, rows.length ≤ count →
    Result.RowWise count oneRow (I.function f rows) fun i => I.function f (oneRow i rows)
  length : ∀ f rows images, I.function f rows = .ok images → images.length = rows.length

variable {I : Interpretation κ α} {count : Nat}

/-- A step of a plan is run row by row. -/
theorem RowWise.step (rowWise : I.RowWise) (count : Nat) (values : Values α) (step : Step) :
    Result.RowWise count Values.oneRow (I.step count values step) fun i =>
      I.step 1 (values.oneRow i) step := by
  -- A value is evaluated row by row; a function is so by assumption, on rows that are transposed
  -- columns.
  cases step with
  | value base a =>
    refine .of_map fun i inside => ?_
    rw [Interpretation.step, Interpretation.step, Arithmetic.terms_oneRow _ inside]
    cases I.terms count values a with
    | error cause => rfl
    | ok columns => exact congrArg Except.ok (Values.oneRow_assign i values base columns).symm
  | block base f arg elements =>
    have argument : Result.RowWise count (fun i => List.map (oneRow i))
        (I.denseColumns I.dim count values arg) fun i => I.denseColumns I.dim 1 (values.oneRow i) arg :=
      .of_map fun i inside => Arithmetic.denseColumns_oneRow _ inside values I.dim arg
    refine argument.bind fun columns _ => ?_
    have function : Result.RowWise count oneRow (I.function f (Tensor.transpose count columns)) fun i =>
        I.function f (Tensor.transpose 1 (columns.map (oneRow i))) :=
      (rowWise.single f count _ (Tensor.length_transpose_le count columns)).congr fun i inside => by
        rw [Tensor.oneRow_transpose inside]
    refine function.bind fun images _ => .ok fun i _ => congrArg Except.ok ?_
    rw [Values.oneRow_assign, List.map_map]
    congr 1
    exact List.map_congr_left fun blade _ => (oneRow_map i _ images).symm

/-- A step of a plan gives a value in every row. -/
theorem RowWise.reach_step (rowWise : I.RowWise) {values next : Values α} (reach : values.Reach count)
    {step : Step} (made : I.step count values step = .ok next) : next.Reach count := by
  -- A step assigns columns that reach all rows.
  cases step with
  | value base a =>
    obtain ⟨columns, evaluated, done⟩ := bind_eq_ok.mp made
    cases done
    exact reach.assign (Arithmetic.reach_terms reach evaluated) base
  | block base f arg elements =>
    obtain ⟨columns, evaluated, rest⟩ := bind_eq_ok.mp made
    obtain ⟨images, computed, done⟩ := bind_eq_ok.mp rest
    cases done
    refine reach.assign (fun column inside => ?_) base
    obtain ⟨blade, -, rfl⟩ := List.mem_map.mp inside
    rw [List.length_map, rowWise.length f _ images computed,
      Tensor.length_transpose (Arithmetic.reach_denseColumns reach evaluated)]

/-- A plan is run row by row. -/
theorem RowWise.run (rowWise : I.RowWise) (p : Plan) (count : Nat) (inputs : List (List α)) :
    Result.RowWise count (fun i => List.map (List.map (oneRow i))) (I.run p count inputs) fun i =>
      I.run p 1 (inputs.map (oneRow i)) := by
  -- The steps run row by row one after the other, and the outputs are read at their values.
  have steps : Result.RowWise count Values.oneRow
      (p.steps.foldlM (I.step count) (Values.assign (fun _ => none) 0 inputs)) fun i =>
        p.steps.foldlM (I.step 1) (Values.assign (fun _ => none) 0 (inputs.map (oneRow i))) :=
    (Result.RowWise.foldlM (rowWise.step count) p.steps _).congr fun i _ => by
      rw [Values.oneRow_assign]
      rfl
  exact steps.bind fun values _ => .of_map fun i inside =>
    mapM_map (Arithmetic.terms_oneRow _ inside values) p.outputs

/-- The outputs of a plan have a value in every row. -/
theorem RowWise.reach_run (rowWise : I.RowWise) {p : Plan} {inputs : List (List α)}
    (reach : Reach count inputs) {outputs : List (List (List α))}
    (made : I.run p count inputs = .ok outputs) : ∀ columns ∈ outputs, Reach count columns := by
  obtain ⟨values, steps, rest⟩ := bind_eq_ok.mp made
  have start : (Values.assign (fun _ => none) 0 inputs).Reach count :=
    Values.Reach.assign (fun id column found => by cases found) reach 0
  -- Every step keeps that all columns reach all rows.
  have kept : values.Reach count := foldlM_keeps (P := Values.Reach count)
    (fun step _ before next holds made => rowWise.reach_step holds made) start steps
  intro columns inside
  obtain ⟨a, -, evaluated⟩ := exists_of_mem_mapM rest inside
  exact Arithmetic.reach_terms kept evaluated

end Interpretation

end Clifford
