import Clifford.Proofs.Plan.Exact

/-! Evaluation of multivectors at exact numbers, term by term: a monomial is its coefficient times the
powers of its numbers, and every blade has the sum of its monomials. -/

namespace Clifford

namespace Arithmetic

/-- Raises to a whole degree. -/
def wholePower (degree : Rat) : Result (Rat → Rat) :=
  if degree.den = 1 then .ok (· ^ degree.num) else .error .notInteger

/-- Evaluation in rational numbers, also for the ids of constants, whose powers belong to the
coefficient. -/
def exact (ρ : Nat → Rat) (deferred : Deferred → Rat → Rat) : Arithmetic Rat Rat where
  ofRat := .ok
  mulCoefficient := (· * ·)
  constantPower? id degree :=
    if id = piId ∨ id = eId then some do return (← wholePower degree) (ρ id) else none
  embed := id
  constant := .ok
  zero := 0
  add := (· + ·)
  mul := (· * ·)
  power := wholePower
  deferred := deferred

end Arithmetic

/-- A batch of one row, in which every id has its number. -/
def Values.row (ρ : Nat → Rat) : Values Rat := fun id => some [ρ id]

/-- A power of whole degree whose id has its number in a batch of one row. -/
def Values.Holds (values : Values Rat) (ρ : Nat → Rat) (p : Power) : Prop :=
  p.degree.den = 1 ∧ values p.id = some [ρ p.id]

/-- Every degree of a multivector is whole. -/
def Multivector.WholeDegrees (a : Multivector) : Prop :=
  ∀ e ∈ a.entries, ∀ p ∈ e.monomial.powers, p.degree.den = 1

/-- The deferred function of a multivector at a number, with its multiplier. -/
def Multivector.applied (deferred : Deferred → Rat → Rat) (a : Multivector) (x : Rat) : Rat :=
  if a.isPlain then x else deferred a.op x * a.opScale

namespace Arithmetic

variable {ρ : Nat → Rat} {deferred : Deferred → Rat → Rat} {values : Values Rat}

/-- What has been multiplied so far: the coefficient alone, or the coefficient and a column of one
number. -/
inductive Multiplied (product : Rat) : Rat × Option (List Rat) → Prop
  | coefficient {q : Rat} : q = product → Multiplied product (q, none)
  | column {q v : Rat} : q * v = product → Multiplied product (q, some [v])

variable (deferred) in
/-- A power is multiplied into the coefficient or into the column. -/
theorem Multiplied.step {product : Rat} {state : Rat × Option (List Rat)}
    (multiplied : Multiplied product state) {p : Power} (held : values.Holds ρ p) :
    ∃ next, (exact ρ deferred).mulPower values state p = .ok next ∧
      Multiplied (product * p.valueAt ρ) next := by
  obtain ⟨whole, number⟩ := held
  have power : wholePower p.degree = .ok (· ^ p.degree.num) := if_pos whole
  obtain ⟨q, column?⟩ := state
  -- Powers of constants go into the coefficient, and the others into the column, if there is one yet.
  by_cases constant : p.id = piId ∨ p.id = eId
  · refine ⟨(q * p.valueAt ρ, column?), ?_, ?_⟩
    · simp only [mulPower, exact, if_pos constant, power, Result.ok_bind, Result.pure_eq_ok]
      rfl
    · cases multiplied with
      | coefficient same => exact .coefficient (by rw [same])
      | column same => exact .column (by rw [← same]; ring)
  · cases multiplied with
    | coefficient same =>
      refine ⟨(q, some [p.valueAt ρ]), ?_, .column (by rw [same])⟩
      simp only [mulPower, exact, if_neg constant, number, power, Result.ok_bind,
        List.map_cons, List.map_nil]
      rfl
    | @column _ v same =>
      refine ⟨(q, some [v * p.valueAt ρ]), ?_, .column (by rw [← same]; ring)⟩
      simp only [mulPower, exact, if_neg constant, number, power, Result.ok_bind,
        List.map_cons, List.map_nil, List.zipWith_cons_cons, List.zipWith_nil_left]
      rfl

variable (deferred) in
/-- All powers of a sequence are multiplied. -/
theorem Multiplied.run {powers : List Power} (held : ∀ p ∈ powers, values.Holds ρ p) :
    ∀ {product : Rat} {state : Rat × Option (List Rat)}, Multiplied product state →
      ∃ final, powers.foldlM ((exact ρ deferred).mulPower values) state = .ok final ∧
        Multiplied (product * (Reading.assigned ρ).value powers) final := by
  -- The powers are multiplied in turn, and associativity joins the products.
  induction powers with
  | nil =>
    intro product state multiplied
    exact ⟨state, rfl, by simpa [Reading.assigned] using multiplied⟩
  | cons p rest ih =>
    intro product state multiplied
    obtain ⟨next, step, advanced⟩ := multiplied.step deferred (held p (by simp))
    obtain ⟨final, run, done⟩ := ih (fun q inside => held q (List.mem_cons_of_mem _ inside)) advanced
    refine ⟨final, by rw [List.foldlM_cons, step, Result.ok_bind, run], ?_⟩
    have value : (Reading.assigned ρ).value (p :: rest) =
        p.valueAt ρ * (Reading.assigned ρ).value rest := List.prod_cons
    rwa [value, ← mul_assoc]

/-- The column of a monomial is its value. -/
theorem monomial_exact {m : Monomial} (held : ∀ p ∈ m.powers, values.Holds ρ p) :
    (exact ρ deferred).monomial 1 values m =
      .ok [m.coefficient * (Reading.assigned ρ).value m.powers] := by
  -- The coefficient starts the product, and is multiplied into the column last.
  obtain ⟨final, run, done⟩ := Multiplied.run deferred held
    (Multiplied.coefficient (q := m.coefficient) rfl)
  rw [monomial]
  show (m.powers.foldlM ((exact ρ deferred).mulPower values) (m.coefficient, none) >>= _) = _
  rw [run, Result.ok_bind]
  cases done with
  | coefficient same =>
    rw [← same]
    rfl
  | @column q v same =>
    rw [← same]
    show Except.ok [v * q] = _
    rw [mul_comm]

/-- Monomials are added to a column of one number. -/
theorem foldlM_addMonomial_exact (ms : List Monomial) :
    (∀ m ∈ ms, ∀ p ∈ m.powers, values.Holds ρ p) → ∀ v : Rat,
      ms.foldlM ((exact ρ deferred).addMonomial 1 values) [v] =
        .ok [v + (Reading.assigned ρ).sum ms] := by
  induction ms with
  | nil =>
    intro _ v
    simp [Reading.sum]
  | cons m rest ih =>
    intro held v
    -- The value of the first monomial is a part of what the others are added to.
    have later := ih (fun n inside => held n (List.mem_cons_of_mem _ inside))
      (v + m.coefficient * (Reading.assigned ρ).value m.powers)
    rw [List.foldlM_cons, addMonomial, monomial_exact (held m (by simp))]
    show rest.foldlM ((exact ρ deferred).addMonomial 1 values) [v + _] = _
    rw [later]
    simp [Reading.sum, add_assoc]

/-- The column of a sum of monomials is the sum of their values. -/
theorem monomials_exact {ms : List Monomial} (nonempty : ms ≠ [])
    (held : ∀ m ∈ ms, ∀ p ∈ m.powers, values.Holds ρ p) :
    (exact ρ deferred).monomials 1 values ms = .ok [(Reading.assigned ρ).sum ms] := by
  cases ms with
  | nil => exact absurd rfl nonempty
  | cons m rest =>
    -- The column of the first monomial is what the others are added to.
    rw [monomials, monomial_exact (held m (by simp)), Result.ok_bind,
      foldlM_addMonomial_exact rest fun n inside => held n (List.mem_cons_of_mem _ inside)]
    simp [Reading.sum]

variable {dim : Nat} {a : Multivector}

/-- The columns of the terms of a multivector are its values on their blades, under what is deferred. -/
theorem terms_exact (canonical : a.Canonical)
    (held : ∀ e ∈ a.entries, ∀ p ∈ e.monomial.powers, values.Holds ρ p) :
    (exact ρ deferred).terms 1 values a =
      .ok (a.terms.map fun t => [a.applied deferred ((Reading.assigned ρ).read a t.element)]) := by
  -- Blades occur once, so the sum of a term is all that is read on its blade.
  refine Result.mapM_ok fun t member => ?_
  rw [monomials_exact (canonical.terms t member).nonempty (fun m inside =>
    held ⟨t.element, m⟩ (Multivector.mem_entries member (List.mem_map_of_mem inside))),
    Result.ok_bind, applyDeferred, (Reading.assigned ρ).read_of_term canonical.ordered member,
    Multivector.applied]
  split <;> rfl

/-- The columns of all blades of a space are the values of a plain multivector on them. -/
theorem denseColumns_exact (canonical : a.Canonical) (bounded : ∀ t ∈ a.terms, t.element < dim)
    (plain : a.Plain) (whole : a.WholeDegrees) :
    (exact ρ deferred).denseColumns dim 1 (Values.row ρ) a =
      .ok ((List.range dim).map fun blade => [(Reading.assigned ρ).read a blade]) := by
  have applied (x : Rat) : a.applied deferred x = x :=
    if_pos (by simp [Multivector.isPlain, plain.1])
  rw [denseColumns, terms_exact canonical fun e inside p member => ⟨whole e inside p member, rfl⟩,
    Result.ok_bind]
  dsimp only
  simp only [applied]
  -- The columns are looked up in a table by blade, which holds every term once.
  have table : a.elements.zip (a.terms.map fun t => [(Reading.assigned ρ).read a t.element]) =
      a.elements.map fun blade => (blade, [(Reading.assigned ρ).read a blade]) := by
    rw [Multivector.elements, List.zip_map', List.map_map]
    rfl
  have inside : ((a.elements.map fun blade => (blade, [(Reading.assigned ρ).read a blade])).any
      fun c => dim ≤ c.1) = false := by
    rw [List.any_eq_false]
    intro c member
    obtain ⟨blade, present, rfl⟩ := List.mem_map.mp member
    obtain ⟨t, stored, rfl⟩ := List.mem_map.mp present
    simpa using bounded t stored
  rw [table, inside, if_neg Bool.false_ne_true]
  refine congrArg Except.ok (List.map_congr_left fun blade _ => ?_)
  rw [← List.map_reverse, Functions.lookup_map]
  by_cases present : blade ∈ a.elements
  · simp [present]
  · -- A blade without a term has a column of zeros.
    simp [present, Reading.read_of_absent _ present, exact]

end Arithmetic

end Clifford
