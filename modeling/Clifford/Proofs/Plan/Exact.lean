import Clifford.Plan.Evaluate
import Clifford.Proofs.Multivector.Fresh

/-! Exact evaluation: plans run on rational numbers, and the columns of a multivector are the
coefficients that it denotes. -/

namespace Clifford

/-- A batch of one row has its columns as the row. -/
theorem Tensor.transpose_single {α β : Type} (f : α → β) (xs : List α) :
    transpose 1 (xs.map fun x => [f x]) = [xs.map f] := by
  -- Every column adds its number to the row.
  induction xs with
  | nil => rfl
  | cons x rest ih =>
    rw [transpose] at ih ⊢
    rw [List.map_cons, List.foldr_cons, ih]
    rfl

/-- A power of a number, which is not defined for a degree that is not whole and for a negative power
of zero. -/
def exactPower (degree q : Rat) : Option Rat :=
  if degree.den = 1 ∧ (0 ≤ degree ∨ q ≠ 0) then some (q ^ degree.num) else none

namespace Functions

variable {dim : Nat} (F : Functions dim)

/-- Arithmetic on rational numbers, of which some are not defined, without ids for constants. -/
def arithmetic : Arithmetic Rat (Option Rat) where
  ofRat := .ok
  mulCoefficient := (· * ·)
  constantPower? _ _ := none
  embed := some
  constant q := .ok (some q)
  zero := some 0
  add := Option.map₂ (· + ·)
  mul := Option.map₂ (· * ·)
  power degree := .ok fun x => x.bind (exactPower degree)
  deferred op x := x.bind (F.number op)

/-- A function of a row of coefficients, where one that is not defined makes all of them so. -/
def row (function : RotorFunction) (xs : List (Option Rat)) : List (Option Rat) :=
  match (xs.mapM id).bind fun numbers => F.rotor function fun b => numbers.getD b 0 with
  | some y => (List.range dim).map fun b => some (y b)
  | none => List.replicate dim none

/-- Exact evaluation. -/
def interpretation : Interpretation Rat (Option Rat) where
  toArithmetic := F.arithmetic
  dim := dim
  function f rows := .ok (rows.map (F.row f))

end Functions

/-- Every id below a bound has its number, in a batch of one row. -/
def Values.Assigns (values : Values (Option Rat)) (ρ : Nat → Rat) (bound : Nat) : Prop :=
  ∀ id < bound, values id = some [some (ρ id)]

namespace Functions

variable {dim : Nat} {F : Functions dim} {values : Values (Option Rat)} {ρ : Nat → Rat} {bound : Nat}

/-- An admitted power is multiplied into a column. -/
theorem mulPower_eq (assigns : values.Assigns ρ bound) {p : Power} (admitted : p.AdmittedBy ρ bound)
    (coefficient : Rat) (column? : Option (List (Option Rat))) :
    F.arithmetic.mulPower values (coefficient, column?) p =
      .ok (coefficient, some (match column? with
        | none => [some (p.valueAt ρ)]
        | some column => List.zipWith (Option.map₂ (· * ·)) column [some (p.valueAt ρ)])) := by
  -- The power is defined, and is the value of the power.
  obtain ⟨small, whole, defined⟩ := admitted
  have power : exactPower p.degree (ρ p.id) = some (p.valueAt ρ) := by
    rw [exactPower, if_pos ⟨Dyadic.zero_iff.mp whole, defined⟩]
    rfl
  rw [Arithmetic.mulPower]
  simp only [arithmetic, assigns p.id small, Result.ok_bind, List.map_cons, List.map_nil,
    Option.bind_some, power]
  cases column? <;> rfl

/-- The powers of a monomial are multiplied into a column of one number. -/
theorem foldlM_mulPower (assigns : values.Assigns ρ bound) (coefficient : Rat)
    (powers : List Power) : (∀ p ∈ powers, p.AdmittedBy ρ bound) → ∀ v : Rat,
      powers.foldlM (F.arithmetic.mulPower values) (coefficient, some [some v]) =
        .ok (coefficient, some [some (v * (Reading.assigned ρ).value powers)]) := by
  -- The powers are multiplied in turn, and associativity joins the products.
  induction powers with
  | nil =>
    intro _ v
    simp [Reading.assigned]
  | cons p rest ih =>
    intro admitted v
    rw [List.foldlM_cons, mulPower_eq assigns (admitted p (by simp)), Result.ok_bind]
    have later := ih (fun q inside => admitted q (List.mem_cons_of_mem _ inside)) (v * p.valueAt ρ)
    simp only [List.zipWith_cons_cons, List.zipWith_nil_left, Option.map₂_some_some]
    rw [later, mul_assoc]
    rfl

/-- The column of a monomial is its value. -/
theorem monomial_eq (assigns : values.Assigns ρ bound) {m : Monomial}
    (admitted : ∀ p ∈ m.powers, p.AdmittedBy ρ bound) :
    F.arithmetic.monomial 1 values m =
      .ok [some (m.coefficient * (Reading.assigned ρ).value m.powers)] := by
  obtain ⟨coefficient, powers⟩ := m
  rw [Arithmetic.monomial]
  show (powers.foldlM (F.arithmetic.mulPower values) (coefficient, none) >>= _) = _
  cases powers with
  | nil =>
    -- Without powers the coefficient stands for itself.
    simp [Reading.assigned]
    rfl
  | cons p rest =>
    rw [List.foldlM_cons, mulPower_eq assigns (admitted p (by simp)), Result.ok_bind,
      foldlM_mulPower assigns coefficient rest fun q inside =>
        admitted q (List.mem_cons_of_mem _ inside)]
    show Except.ok [some ((p.valueAt ρ * (Reading.assigned ρ).value rest) * coefficient)] = _
    rw [mul_comm]
    rfl

/-- Monomials are added to a column of one number. -/
theorem foldlM_addMonomial (assigns : values.Assigns ρ bound) (ms : List Monomial) :
    (∀ m ∈ ms, ∀ p ∈ m.powers, p.AdmittedBy ρ bound) → ∀ v : Rat,
      ms.foldlM (F.arithmetic.addMonomial 1 values) [some v] =
        .ok [some (v + (Reading.assigned ρ).sum ms)] := by
  induction ms with
  | nil =>
    intro _ v
    simp [Reading.sum]
  | cons m rest ih =>
    intro admitted v
    -- The value of the first monomial is a part of what the others are added to.
    have later := ih (fun n inside => admitted n (List.mem_cons_of_mem _ inside))
      (v + m.coefficient * (Reading.assigned ρ).value m.powers)
    rw [List.foldlM_cons, Arithmetic.addMonomial, monomial_eq assigns (admitted m (by simp))]
    show rest.foldlM _ [some (v + _)] = _
    rw [later]
    simp [Reading.sum, add_assoc]

/-- The column of a sum of monomials is the sum of their values. -/
theorem monomials_eq (assigns : values.Assigns ρ bound) {ms : List Monomial} (nonempty : ms ≠ [])
    (admitted : ∀ m ∈ ms, ∀ p ∈ m.powers, p.AdmittedBy ρ bound) :
    F.arithmetic.monomials 1 values ms = .ok [some ((Reading.assigned ρ).sum ms)] := by
  cases ms with
  | nil => exact absurd rfl nonempty
  | cons m rest =>
    -- The column of the first monomial is what the others are added to.
    rw [Arithmetic.monomials, monomial_eq assigns (admitted m (by simp)), Result.ok_bind,
      foldlM_addMonomial assigns rest fun n inside => admitted n (List.mem_cons_of_mem _ inside)]
    simp [Reading.sum]

/-- The columns of the terms of a multivector are the coefficients that it denotes on its blades. -/
theorem terms_eq (assigns : values.Assigns ρ bound) {a : Multivector} {x : Dense}
    (denotes : a.Denotes F ρ bound x) :
    F.arithmetic.terms 1 values a = .ok (a.terms.map fun t => [some (x t.element)]) := by
  -- Blades occur once, so the sum of a term is the coefficient on its blade.
  refine Result.mapM_ok fun t member => ?_
  have present : t.element ∈ a.elements := List.mem_map_of_mem member
  have canonical := denotes.inSpace.canonical
  have sum := (Reading.assigned ρ).read_of_term canonical.ordered member
  have coefficient := denotes.coefficient t.element
  rw [Multivector.coefficientAt, if_pos present, sum] at coefficient
  rw [monomials_eq assigns (canonical.terms t member).nonempty (fun m inside =>
    denotes.admitted ⟨t.element, m⟩ (Multivector.mem_entries member (List.mem_map_of_mem inside))),
    Result.ok_bind, Arithmetic.applyDeferred]
  cases plain : a.isPlain with
  | true =>
    rw [plain, if_pos rfl] at coefficient
    rw [if_pos rfl, Option.some.inj coefficient]
  | false =>
    -- The function is applied to the sum, and its multiplier to the result.
    rw [plain, if_neg Bool.false_ne_true] at coefficient
    obtain ⟨number, value, product⟩ := Option.map_eq_some_iff.mp coefficient
    rw [if_neg Bool.false_ne_true, ← product]
    simp [arithmetic, value, mul_comm]

/-- A table of values by key holds the value of each of its keys. -/
theorem lookup_map {β : Type} (f : Nat → β) (key : Nat) (keys : List Nat) :
    (keys.map fun k => (k, f k)).lookup key = if key ∈ keys then some (f key) else none := by
  -- The first entry with the key is found, and all of them agree.
  induction keys with
  | nil => rfl
  | cons k rest ih =>
    rw [List.map_cons, List.lookup_cons, ih]
    by_cases same : key = k
    · simp [same]
    · have other : (key == k) = false := by simpa using same
      simp [other, same]

/-- The terms of a multivector with their columns are a table by blade. -/
theorem zip_terms (a : Multivector) (x : Dense) :
    a.elements.zip (a.terms.map fun t => [some (x t.element)]) =
      a.elements.map fun blade => (blade, [some (x blade)]) := by
  rw [Multivector.elements, List.zip_map', List.map_map]
  rfl

/-- The columns of all blades of a space are the coefficients that a multivector denotes. -/
theorem denseColumns_eq (assigns : values.Assigns ρ bound) {a : Multivector} {x : Dense}
    (denotes : a.Denotes F ρ bound x) :
    F.arithmetic.denseColumns dim 1 values a =
      .ok ((List.range dim).map fun blade => [some (x blade)]) := by
  -- No term lies outside of the space, where the columns would be refused.
  rw [Arithmetic.denseColumns, terms_eq assigns denotes, Result.ok_bind]
  dsimp only
  rw [zip_terms]
  have inside : ((a.elements.map fun blade => (blade, [some (x blade)])).any
      fun c => dim ≤ c.1) = false := by
    rw [List.any_eq_false]
    intro c member
    obtain ⟨blade, present, rfl⟩ := List.mem_map.mp member
    simpa using denotes.element_lt present
  rw [inside, if_neg Bool.false_ne_true]
  refine congrArg Except.ok (List.map_congr_left fun blade _ => ?_)
  rw [← List.map_reverse, lookup_map]
  by_cases present : blade ∈ a.elements
  · simp [present]
  · -- A blade without a term has a column of zeros.
    simp [present, denotes.absent present, arithmetic]

/-- A function of the coefficients of a vector in the space. -/
theorem row_eq {function : RotorFunction} {x y : Dense} (bounded : ∀ b, x b ≠ 0 → b < dim)
    (value : F.rotor function x = some y) :
    F.row function ((List.range dim).map fun b => some (x b)) =
      (List.range dim).map fun b => some (y b) := by
  -- All numbers of the row are defined, and they are the whole vector.
  have numbers : ((List.range dim).map fun b => some (x b)).mapM id =
      some ((List.range dim).map x) := by
    generalize List.range dim = blades
    induction blades with
    | nil => rfl
    | cons b rest ih => simp [ih]
  have same : (fun b => ((List.range dim).map x).getD b 0) = x := by
    funext b
    by_cases inside : b < dim
    · simp [List.getD_eq_getElem?_getD, inside]
    · rw [List.getD_eq_default _ _ (by simpa using inside)]
      exact (not_ne_iff.mp (mt (bounded b) inside)).symm
  rw [row, numbers, Option.bind_some, same, value]

end Functions

/-- An assignment that goes on with other numbers from a bound on. -/
def extendFrom (ρ : Nat → Rat) (bound : Nat) (numbers : List Rat) : Nat → Rat :=
  fun id => if id < bound then ρ id else numbers.getD (id - bound) 0

/-- Ids below the bound keep their numbers. -/
theorem extendFrom_below {ρ : Nat → Rat} {bound : Nat} {numbers : List Rat} :
    ∀ id < bound, extendFrom ρ bound numbers id = ρ id := by
  intro id small
  rw [extendFrom, if_pos small]

/-- Ids from the bound on have the numbers that follow. -/
theorem extendFrom_add {ρ : Nat → Rat} {bound : Nat} {numbers : List Rat} (k : Nat)
    (inside : k < numbers.length) : extendFrom ρ bound numbers (bound + k) = numbers[k] := by
  rw [extendFrom, if_neg (by omega), Nat.add_sub_cancel_left, List.getD_eq_getElem _ _ inside]

namespace Values.Assigns

variable {values : Values (Option Rat)} {ρ : Nat → Rat} {bound : Nat}

/-- Columns for the ids that follow extend the assignment. -/
theorem assign (assigns : values.Assigns ρ bound) (numbers : List Rat) :
    (values.assign bound (numbers.map fun q => [some q])).Assigns (extendFrom ρ bound numbers)
      (bound + numbers.length) := by
  -- An id is old, or it is one of those that follow.
  intro id small
  rw [Values.assign]
  by_cases old : id < bound
  · rw [if_neg (by omega), extendFrom_below id old, assigns id old]
  · obtain ⟨k, rfl⟩ := Nat.exists_eq_add_of_le (not_lt.mp old)
    have inside : k < numbers.length := by omega
    rw [if_pos (by simpa using inside), Nat.add_sub_cancel_left, extendFrom_add k inside]
    simp [inside]

/-- The inputs of a plan are assigned from the first id on. -/
theorem inputs (numbers : List Rat) :
    (Values.assign (fun _ => none) 0 (numbers.map fun q => [some q])).Assigns
      (fun id => numbers.getD id 0) numbers.length := by
  have none : Values.Assigns (fun _ => Option.none) (fun _ => 0) 0 := by
    intro id small
    omega
  have extended := none.assign numbers
  rw [Nat.zero_add] at extended
  exact extended

variable {dim : Nat} {F : Functions dim} {a : Multivector} {x y : Dense}

/-- A step gives the coefficients that a multivector denotes to the ids that follow. -/
theorem step_value (assigns : values.Assigns ρ bound) (denotes : a.Denotes F ρ bound x) :
    ∃ later, F.interpretation.step 1 values (.value bound a) = .ok later ∧
      later.Assigns (extendFrom ρ bound (a.elements.map x)) (bound + a.elements.length) := by
  -- The columns of the terms are single numbers, one for each blade.
  have run : F.interpretation.step 1 values (.value bound a) =
      .ok (values.assign bound ((a.elements.map x).map fun q => [some q])) := by
    rw [Interpretation.step]
    show F.arithmetic.terms 1 values a >>= _ = _
    rw [Functions.terms_eq assigns denotes, Multivector.elements, List.map_map, List.map_map]
    rfl
  refine ⟨_, run, ?_⟩
  simpa using assigns.assign (a.elements.map x)

/-- A step gives the coefficients of a function to the ids that follow. -/
theorem step_block (assigns : values.Assigns ρ bound) (denotes : a.Denotes F ρ bound x)
    {function : RotorFunction} (value : F.rotor function x = some y) {elements : List Nat}
    (inside : ∀ e ∈ elements, e < dim) :
    ∃ later, F.interpretation.step 1 values (.block bound function a elements) = .ok later ∧
      later.Assigns (extendFrom ρ bound (elements.map y)) (bound + elements.length) := by
  -- The only row holds the coefficients of the argument, and its image those of the result.
  have run : F.interpretation.step 1 values (.block bound function a elements) =
      .ok (values.assign bound ((elements.map y).map fun q => [some q])) := by
    rw [Interpretation.step]
    show F.arithmetic.denseColumns dim 1 values a >>= _ = _
    rw [Functions.denseColumns_eq assigns denotes, Result.ok_bind]
    show Except.ok (values.assign bound (elements.map fun blade =>
      ((Tensor.transpose 1 _).map (F.row function)).map fun row => row.getD blade (some 0))) = _
    rw [Tensor.transpose_single, List.map_map, List.map_cons, List.map_nil,
      Functions.row_eq (fun b => denotes.bounded) value]
    congr 2
    refine List.map_congr_left fun blade member => ?_
    simp [List.getD_eq_getElem?_getD, inside blade member]
  refine ⟨_, run, ?_⟩
  simpa using assigns.assign (elements.map y)

end Values.Assigns

end Clifford
