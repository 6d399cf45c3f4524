import Clifford.Entity.Reading
import Clifford.Proofs.Dense.Evaluation
import Clifford.Proofs.Multivector.PolynomialValue

/-! Plans on single rows: in exact arithmetic the output of a plan holds the values of the polynomials of
its blades, at the numbers of the fields. -/

namespace Clifford

open Finsupp
open MvPolynomial (X eval)

/-- A tensor of one dimension is a single row. -/
theorem Tensor.rows_single {α : Type} (x : List α) : rows ⟨[x.length], x⟩ = [x] := by
  -- The only row is as long as the tensor.
  show [x.take x.length] = [x]
  rw [List.take_length]

/-- Columns of one number each are a single row. -/
theorem Tensor.ofColumns_single {α β : Type} (f : α → β) (xs : List α) :
    ofColumns [] (xs.map fun x => [f x]) = ⟨[(xs.map f).length], xs.map f⟩ := by
  -- A batch without dimensions has one row.
  rw [ofColumns, show count [] = 1 from rfl, transpose_single, ofRows]
  simp

namespace Plan

/-- The columns of a single row are its entries. -/
theorem inputColumns_single (x : List Rat) : inputColumns [] ⟨[x.length], x⟩ = x.map ([·]) := by
  rw [inputColumns, Tensor.rows_single]
  show (List.range x.length).map (fun i => [x].filterMap (·[i]?)) = _
  -- Each column has the entry of the row at its place.
  refine List.ext_getElem (by simp) fun i small _ => ?_
  have inside : i < x.length := by simpa using small
  simp [inside]

/-- On single rows a plan is run on their entries. -/
theorem evaluate_rows {p : Plan} (I : Interpretation Rat Rat) {x y : List Rat}
    (size : x.length + y.length = p.inputSize) :
    p.evaluate I [⟨[x.length], x⟩, ⟨[y.length], y⟩] = do
      return List.zipWith (fun a columns => ⟨a.elements, Tensor.ofColumns [] columns⟩) p.outputs
        (← I.run p 1 ((x ++ y).map ([·]))) := by
  -- The columns of both rows are those of all entries in order.
  have columns : [(⟨[x.length], x⟩ : Tensor Rat), ⟨[y.length], y⟩].flatMap (inputColumns []) =
      (x ++ y).map ([·]) := by
    simp only [List.flatMap_cons, List.flatMap_nil, List.append_nil, inputColumns_single, List.map_append]
  rw [← columns]
  show (if 0 + x.length + y.length ≠ p.inputSize then _ else _) = _
  rw [Nat.zero_add, if_neg (not_not_intro size)]
  rfl

end Plan

/-- Every id below a bound has its number, in a batch of one row. -/
def Values.HasNumbers (values : Values Rat) (ρ : Nat → Rat) (bound : Nat) : Prop :=
  ∀ id < bound, values id = some [ρ id]

namespace Values.HasNumbers

variable {values : Values Rat} {ρ : Nat → Rat} {bound : Nat}

/-- The inputs of a plan have the first ids. -/
theorem inputs (numbers : List Rat) (others : Nat → Rat) :
    (Values.assign (fun _ => none) 0 (numbers.map ([·]))).HasNumbers (fun id => numbers.getD id (others id))
      numbers.length := by
  -- The id of an input is its place.
  intro id small
  rw [Values.assign, if_pos ⟨Nat.zero_le _, by simpa using small⟩]
  simp [small]

/-- A number for the next id. -/
theorem assign (numbered : values.HasNumbers ρ bound) (q : Rat) :
    (values.assign bound [[q]]).HasNumbers (Function.update ρ bound q) (bound + 1) := by
  -- The id is the next one or an old one.
  intro id small
  rw [Values.assign]
  by_cases new : id = bound
  · subst new
    simp
  · rw [if_neg (by simp; omega), Function.update_of_ne new]
    exact numbered id (by omega)

end Values.HasNumbers

/-- Only the numbers of the constants play a part in exact arithmetic itself. -/
theorem Arithmetic.exact_congr {ρ ρ' : Nat → Rat} (circle : ρ piId = ρ' piId) (base : ρ eId = ρ' eId)
    (deferred : Deferred → Rat → Rat) : exact ρ deferred = exact ρ' deferred := by
  -- Numbers only occur in the powers of the constants.
  have powers : (exact ρ deferred).constantPower? = (exact ρ' deferred).constantPower? := by
    funext id degree
    simp only [exact]
    split
    · rename_i constant
      rcases constant with rfl | rfl
      · rw [circle]
      · rw [base]
    · rfl
  simp only [exact] at powers ⊢
  rw [powers]

/-- Exact evaluation, with numbers for the constants, and with functions where the operators leave the
rational numbers. -/
def Interpretation.exact (dim : Nat) (constants : Nat → Rat) (deferred : Deferred → Rat → Rat)
    (function : RotorFunction → List (List Rat) → Result (List (List Rat))) : Interpretation Rat Rat where
  toArithmetic := .exact constants deferred
  dim := dim
  function := function

/-- The coefficients on a blade of a single row. -/
theorem NumericMultivector.select_single (elements : List Nat) (g : Nat → Rat) {blade : Nat}
    (absent : blade ∉ elements → g blade = 0) :
    NumericMultivector.select ⟨elements, Tensor.ofColumns [] (elements.map fun e => [g e])⟩ blade =
      ⟨[], [g blade]⟩ := by
  -- The blade is found in the list, or it has no coefficient.
  rw [Tensor.ofColumns_single, select, Tensor.rows_single]
  dsimp only
  cases found : elements.idxOf? blade with
  | none =>
    rw [absent (List.idxOf?_eq_none_iff.mp found)]
    rfl
  | some index =>
    obtain ⟨small, same, -⟩ := List.idxOf?_eq_some_iff.mp found
    simp [small, same, Tensor.batchShape]

namespace Multivector

variable {dim k bound : Nat} {f : Nat →₀ MvPolynomial Nat Rat} {a b : Multivector} {values : Values Rat}
  {ρ : Nat → Rat}

/-- The columns of terms with polynomial values are the values of the polynomials, under what is
deferred. -/
theorem HasValue.terms_exact (has : a.HasValue dim k bound f) (same : b.terms = a.terms)
    (numbered : values.HasNumbers ρ bound) (deferred : Deferred → Rat → Rat) :
    (Arithmetic.exact ρ deferred).terms 1 values b =
      .ok (b.elements.map fun e => [b.applied deferred (eval ρ (f e))]) := by
  obtain ⟨terms, op, opScale⟩ := b
  obtain rfl : terms = a.terms := same
  -- What is deferred has no part in how the terms are read.
  have canonical : Canonical ⟨a.terms, op, opScale⟩ :=
    ⟨has.inSpace.canonical.terms, has.inSpace.canonical.ordered⟩
  have read (blade : Nat) : (Reading.assigned ρ).read ⟨a.terms, op, opScale⟩ blade = eval ρ (f blade) :=
    has.read_assigned ρ blade
  rw [Arithmetic.terms_exact canonical fun e inside p member =>
    have natural := has.natural e inside p member
    ⟨natural.2.1, numbered p.id natural.1⟩, elements, List.map_map]
  simp only [read]
  rfl

end Multivector

section Outputs

variable {dim k bound : Nat} {f : Nat →₀ MvPolynomial Nat Rat} {c d : Multivector} {x y : List Rat}

/-- The numbers of the fields, and the given ones for the other ids. -/
def fieldNumbers (x y : List Rat) (others : Nat → Rat) (id : Nat) : Rat := (x ++ y).getD id (others id)

/-- Fields before the ids of constants leave these their numbers. -/
theorem exact_fieldNumbers (size : x.length + y.length = bound) (small : bound < constantBase)
    (others : Nat → Rat) (deferred : Deferred → Rat → Rat) :
    Arithmetic.exact others deferred = .exact (fieldNumbers x y others) deferred := by
  refine Arithmetic.exact_congr ?_ ?_ deferred
  all_goals
    rw [fieldNumbers, List.getD_eq_default]
    simp only [List.length_append, piId, eId]
    omega

/-- Nor does a number for the id behind the fields change them. -/
theorem exact_update (size : x.length + y.length = bound) (small : bound < constantBase)
    (others : Nat → Rat) (deferred : Deferred → Rat → Rat) (value : Rat) :
    Arithmetic.exact others deferred =
      .exact (Function.update (fieldNumbers x y others) bound value) deferred := by
  rw [exact_fieldNumbers size small]
  refine Arithmetic.exact_congr ?_ ?_ deferred
  all_goals
    rw [Function.update_of_ne]
    simp only [piId, eId]
    omega

/-- The inputs have the numbers of the fields. -/
theorem hasNumbers_fieldNumbers (size : x.length + y.length = bound) (others : Nat → Rat) :
    (Values.assign (fun _ => none) 0 ((x ++ y).map ([·]))).HasNumbers (fieldNumbers x y others) bound := by
  rw [← size, ← List.length_append]
  exact Values.HasNumbers.inputs (x ++ y) others

/-- A plan without steps gives the values of the polynomials of its output. -/
theorem Plan.exists_output (has : c.HasValue dim k bound f) (size : x.length + y.length = bound)
    (small : bound < constantBase) (others : Nat → Rat) (deferred : Deferred → Rat → Rat)
    (function : RotorFunction → List (List Rat) → Result (List (List Rat))) :
    ∃ out, Plan.evaluate ⟨[], [c], bound, bound⟩ (.exact dim others deferred function)
        [⟨[x.length], x⟩, ⟨[y.length], y⟩] = .ok [out] ∧
      ∀ blade, out.select blade = ⟨[], [eval (fieldNumbers x y others) (f blade)]⟩ := by
  -- Nothing is deferred in the output.
  have applied (q : Rat) : c.applied deferred q = q := if_pos has.isPlain
  have terms := has.terms_exact rfl (hasNumbers_fieldNumbers size others) deferred
  rw [← exact_fieldNumbers size small] at terms
  simp only [applied] at terms
  have run : (Interpretation.exact dim others deferred function).run ⟨[], [c], bound, bound⟩ 1
      ((x ++ y).map ([·])) = .ok [c.elements.map fun e => [eval (fieldNumbers x y others) (f e)]] := by
    show [c].mapM ((Arithmetic.exact others deferred).terms 1 _) = _
    rw [List.mapM_cons, terms]
    rfl
  refine ⟨_, by rw [evaluate_rows _ size, run]; rfl, fun blade => ?_⟩
  -- A blade that the output does not hold has the value zero.
  refine NumericMultivector.select_single c.elements _ fun absent => ?_
  rw [← has.value, Reading.read_of_absent _ absent, map_zero]

/-- A plan that stores a root gives the root of the value of its argument. -/
theorem Plan.exists_root (has : d.HasValue dim k bound f) (scalar : d.elements = [0])
    (size : x.length + y.length = bound) (small : bound < constantBase) (others : Nat → Rat)
    (deferred : Deferred → Rat → Rat)
    (function : RotorFunction → List (List Rat) → Result (List (List Rat))) :
    ∃ out, Plan.evaluate ⟨[.value bound { terms := d.terms, op := .sqrt }], [.fresh bound [0]], bound,
          bound + 1⟩ (.exact dim others deferred function) [⟨[x.length], x⟩, ⟨[y.length], y⟩] = .ok [out] ∧
      out.select 0 = ⟨[], [deferred .sqrt (eval (fieldNumbers x y others) (f 0))]⟩ := by
  -- The root is deferred in a temporary, which is evaluated before the output.
  set root : Multivector := { terms := d.terms, op := .sqrt }
  set value := deferred .sqrt (eval (fieldNumbers x y others) (f 0))
  have numbered := hasNumbers_fieldNumbers size others
  have terms := has.terms_exact (b := root) rfl numbered deferred
  have blades : root.elements = [0] := scalar
  have applied : root.applied deferred (eval (fieldNumbers x y others) (f 0)) = value := mul_one _
  rw [← exact_fieldNumbers size small, blades, List.map_singleton, applied] at terms
  -- The temporary has the next id, which is not one of a constant either.
  have later := (Multivector.HasValue.fresh Nat.one_pos bound).terms_exact rfl (numbered.assign value) deferred
  have read : Multivector.applied deferred (.fresh bound [0])
      (eval (Function.update (fieldNumbers x y others) bound value) (single 0 (X bound) 0)) = value := by
    rw [single_eq_same, MvPolynomial.eval_X, Function.update_self]
    rfl
  rw [← exact_update size small, Multivector.elements_fresh, List.map_singleton, read] at later
  -- The step stores the root, and the output reads it back.
  have step : (Interpretation.exact dim others deferred function).step 1
      (Values.assign (fun _ => none) 0 ((x ++ y).map ([·]))) (.value bound root) =
        .ok (Values.assign (Values.assign (fun _ => none) 0 ((x ++ y).map ([·]))) bound [[value]]) := by
    show (do return Values.assign _ bound (← (Arithmetic.exact others deferred).terms 1 _ root)) = _
    rw [terms]
    rfl
  have run : (Interpretation.exact dim others deferred function).run
      ⟨[.value bound root], [.fresh bound [0]], bound, bound + 1⟩ 1 ((x ++ y).map ([·])) =
        .ok [[[value]]] := by
    rw [Interpretation.run, List.foldlM_cons, step]
    show [Multivector.fresh bound [0]].mapM ((Arithmetic.exact others deferred).terms 1 _) = _
    rw [List.mapM_cons, later]
    rfl
  refine ⟨_, by rw [evaluate_rows _ size, run]; rfl, ?_⟩
  show NumericMultivector.select ⟨[0], Tensor.ofColumns [] ([0].map fun _ => [value])⟩ 0 = _
  exact NumericMultivector.select_single [0] (fun _ => value) (by simp)

end Outputs

end Clifford
