import Clifford.Proofs.Multivector.Concur
import Clifford.Proofs.Multivector.Lattice
import Clifford.Proofs.Multivector.Scaling

/-! Quotients: a division by a scalar monomial undoes the multiplication by it, and other divisors are
refused. -/

namespace Clifford

open Finsupp Result

/-- The exponents of reciprocals are the opposite ones. -/
theorem exponents_inverse (powers : List Power) :
    exponents (powers.map Power.inverse) = -exponents powers := by
  induction powers with
  | nil => simp [exponents]
  | cons p rest ih =>
    simp only [exponents, List.map_cons, List.sum_cons, neg_add] at ih ⊢
    rw [ih, ← single_neg]
    rfl

/-- The value of a monomial on the scalar blade. -/
noncomputable def scalarValue (e : Nat →₀ Rat) (q : Rat) : Nat →₀ ((Nat →₀ Rat) →₀ Rat) :=
  single 0 (single e q)

/-- Monomials on the scalar blade multiply as exponents add. -/
theorem clifford_scalarValue (m : Metric) (e f : Nat →₀ Rat) (p q : Rat) :
    Reading.laurent.clifford .geometric m (scalarValue e p) (scalarValue f q) =
      scalarValue (e + f) (p * q) := by
  rw [scalarValue, scalarValue, Reading.clifford_scalar, Reading.laurent_mul_single, scalarValue]

section Divide

variable {metric : Metric} {m : Monomial} {a b c : Multivector} {j k : Nat}

/-- The quotient of an entry has the value of its product with the reciprocal of the monomial. -/
theorem Entry.weight_quotient {e f : Entry} (small : k ≤ exactBits)
    (dyadic : Dyadic k (e.monomial.coefficient * m.coefficient⁻¹))
    (left : ∀ p ∈ e.monomial.powers, Dyadic 0 p.degree)
    (right : ∀ p ∈ m.powers.map Power.inverse, Dyadic 0 p.degree)
    (made : Entry.quotient m e = .ok f) :
    f.monomial.coefficient • Reading.laurent.weight f.element f.monomial.powers =
      Reading.laurent.clifford .geometric metric
        (e.monomial.coefficient • Reading.laurent.weight e.element e.monomial.powers)
        (scalarValue (-exponents m.powers) m.coefficient⁻¹) := by
  obtain ⟨element, coefficient, product⟩ := (Entry.quotient_eq_ok small dyadic).mp made
  -- The exponents of the reciprocal are subtracted.
  have powers := (exponents_mulPowers left right product).1
  rw [exponents_inverse] at powers
  rw [map_smul, LinearMap.smul_apply, Reading.weight, Reading.weight, scalarValue,
    Reading.clifford_scalar, element, coefficient]
  simp only [Reading.laurent, smul_single, smul_eq_mul, mul_one, powers]
  rw [show linearCombination Rat _ = Reading.laurent.mul from rfl, Reading.laurent_mul_single]
  simp

/-- The quotients of entries have the value of their product with the reciprocal of the monomial. -/
theorem weightedSum_quotient {es fs : List Entry} (small : k ≤ exactBits)
    (dyadic : ∀ e ∈ es, Dyadic k (e.monomial.coefficient * m.coefficient⁻¹))
    (left : ∀ e ∈ es, ∀ p ∈ e.monomial.powers, Dyadic 0 p.degree)
    (right : ∀ p ∈ m.powers.map Power.inverse, Dyadic 0 p.degree)
    (mapped : es.mapM (Entry.quotient m) = .ok fs) :
    weightedSum Reading.laurent.weight fs =
      Reading.laurent.clifford .geometric metric (weightedSum Reading.laurent.weight es)
        (scalarValue (-exponents m.powers) m.coefficient⁻¹) := by
  -- The product is linear, so the quotients are followed one by one.
  induction Result.mapM_eq_ok.mp mapped with
  | nil => simp
  | @cons e f es fs made pairs ih =>
    have others := ih (fun g inside => dyadic g (List.mem_cons_of_mem _ inside))
      (fun g inside => left g (List.mem_cons_of_mem _ inside)) (Result.mapM_eq_ok.mpr pairs)
    rw [weightedSum_cons, weightedSum_cons, map_add, LinearMap.add_apply, others,
      Entry.weight_quotient small (dyadic e (by simp)) (left e (by simp)) right made]

namespace Multivector

/-- Polynomials have a quotient by a monomial where all coefficients stay exact, whose value is the product
with that of the reciprocal. -/
theorem Polynomial.exists_divide (left : a.Polynomial metric.dim k) (divisor : b.IsDivisor m)
    (plain : b.op = .identity)
    (degrees : ∀ p ∈ m.powers, Dyadic 0 p.degree ∧ p.degree ≠ 0) (small : j ≤ exactBits)
    (dyadic : ∀ e ∈ a.entries, Dyadic j (e.monomial.coefficient * m.coefficient⁻¹)) :
    ∃ c, a.divide b = .ok c ∧ c.Polynomial metric.dim j ∧
      Reading.laurent.read c = Reading.laurent.clifford .geometric metric (Reading.laurent.read a)
        (scalarValue (-exponents m.powers) m.coefficient⁻¹) := by
  have whole : ∀ e ∈ a.entries, ∀ p ∈ e.monomial.powers, Dyadic 0 p.degree :=
    fun e inside p member => (left.degrees e inside p member).1
  -- The reciprocal has the opposite degrees.
  have inverse : ∀ p ∈ m.powers.map Power.inverse, Dyadic 0 p.degree ∧ p.degree ≠ 0 := by
    intro p inside
    obtain ⟨p, given, rfl⟩ := List.mem_map.mp inside
    exact ⟨(degrees p given).1.neg, neg_ne_zero.mpr (degrees p given).2⟩
  have inverseWhole : ∀ p ∈ m.powers.map Power.inverse, Dyadic 0 p.degree :=
    fun p inside => (inverse p inside).1
  -- Whole degrees multiply, so that every entry has a quotient.
  obtain ⟨quotients, mapped⟩ : ∃ quotients, a.entries.mapM (Entry.quotient m) = .ok quotients := by
    refine Result.exists_mapM_ok fun e inside => ?_
    obtain ⟨rs, -, product, -⟩ := multipliable_of_whole (whole e inside) inverseWhole
    exact ⟨Entry.of e.element (e.monomial.coefficient * m.coefficient⁻¹) rs,
      (Entry.quotient_eq_ok small (dyadic e inside)).mpr ⟨rfl, rfl, product⟩⟩
  -- What is collated can be followed back to the entries.
  have source := Entry.quotient_source small dyadic mapped
  have bounded : ∀ f ∈ quotients, f.element < metric.dim := by
    intro f inside
    obtain ⟨e, given, element, -⟩ := source f inside
    exact element ▸ left.inSpace.element_lt given
  obtain ⟨c, collated, inSpace, deferred, kept, value⟩ := collate_over metric.dim small bounded
    (fun f inside => by
      obtain ⟨e, given, -, coefficient, -⟩ := source f inside
      exact coefficient ▸ dyadic e given)
    (fun f inside => by
      obtain ⟨e, given, -, -, product⟩ := source f inside
      exact increasing_mulPowers _ _ (left.inSpace.canonical.entry given).increasing
        (increasing_of_short (by simpa using divisor.short)) product)
    (fun f inside => by
      obtain ⟨e, given, -, -, product⟩ := source f inside
      exact exists_key (exponents_mulPowers (whole e given) inverseWhole product).2) .identity 1
  -- What is collated is the quotient, a polynomial whose value is that of the product.
  refine ⟨c, ?_, ⟨deferred, inSpace, fun f inside p member => ?_⟩, ?_⟩
  · rw [divisor.divide_eq (requirePlain_eq_ok left.plain.1) (requirePlain_eq_ok plain), mapped,
      Result.ok_bind, collated]
  · obtain ⟨g, given, -, powers⟩ := kept f inside
    obtain ⟨e, entry, -, -, product⟩ := source g given
    rw [← powers] at member
    exact ⟨(exponents_mulPowers (whole e entry) inverseWhole product).2 p member,
      nonzero_mulPowers (fun p member => (left.degrees e entry p member).2)
        (fun p member => (inverse p member).2) product p member⟩
  · rw [value, Reading.read]
    exact weightedSum_quotient small dyadic whole inverseWhole mapped

/-- The value of a divisor is that of its monomial. -/
theorem IsDivisor.read_eq (divisor : b.IsDivisor m) :
    Reading.laurent.read b = scalarValue (exponents m.powers) m.coefficient := by
  rw [Reading.read_eq_sum, divisor.terms]
  simp [Reading.sum, scalarValue, Reading.laurent]

/-- The coefficients of a product with a monomial are whole multiples of its coefficient. -/
theorem IsDivisor.dyadic_geometric (divisor : b.IsDivisor m) (left : a.Integral metric.dim)
    (polynomial : c.Polynomial metric.dim k)
    (value : Reading.laurent.read c = Reading.laurent.clifford .geometric metric
      (Reading.laurent.read a) (Reading.laurent.read b)) :
    ∀ e ∈ c.entries, Dyadic 0 (e.monomial.coefficient * m.coefficient⁻¹) := by
  intro e inside
  -- The monomial is its coefficient times one with whole coefficients.
  have unit : scalarValue (exponents m.powers) m.coefficient =
      m.coefficient • scalarValue (exponents m.powers) 1 := by simp [scalarValue]
  have whole := clifford_mem_wholeValues metric left.read_mem
    (single_mem_wholeValues (.one 0) 0 (exponents m.powers))
  rw [← polynomial.coefficient_eq inside, value, divisor.read_eq, unit, map_smul, Finsupp.smul_apply,
    Finsupp.smul_apply, smul_eq_mul, mul_right_comm, mul_inv_cancel₀ divisor.nonzero, one_mul]
  exact dyadic_of_mem_wholeValues whole _ _

/-- A divisor that does not fit is refused, and one that fits is refused nothing. -/
theorem divide_cases (left : a.isPlain = true) (right : b.isPlain = true) (canonical : b.Canonical) :
    (b.terms = [] ∧ a.divide b = .error .divisionByZero) ∨
      (b.terms ≠ [] ∧ (¬∃ m, b.IsDivisor m) ∧ ∃ refusal, a.divide b = .error (.domain refusal)) ∨
        (b.terms ≠ [] ∧ (∃ m, b.IsDivisor m) ∧ FailsOnly Error.Mechanical (a.divide b)) := by
  have plainLeft : a.requirePlain = .ok () := if_pos left
  have plainRight : b.requirePlain = .ok () := if_pos right
  by_cases empty : b.terms = []
  · exact .inl ⟨empty, divide_zero left right (by rw [isZero, empty]; rfl)⟩
  refine .inr ?_
  by_cases single : ∃ m, b.terms = [⟨0, [m]⟩]
  · obtain ⟨m, terms⟩ := single
    by_cases short : m.powers.length ≤ 1
    · -- The coefficient of the only monomial is not zero, so that there is a reciprocal.
      have divisor : b.IsDivisor m :=
        ⟨terms, short, canonical.nonvanishing ⟨0, m⟩ (by simp [entries, terms, Term.entries])⟩
      refine .inr ⟨empty, ⟨m, divisor⟩, ?_⟩
      rw [divisor.divide_eq plainLeft plainRight]
      exact .bind (.mapM fun e _ => e.quotient_fails _ _) fun _ _ => collate_fails _ _ _
    · -- The monomial is found, but its reciprocal would need more than one indeterminate.
      refine .inl ⟨empty, ?_, .manyIndeterminates m.powers.length, ?_⟩
      · rintro ⟨m', divisor⟩
        obtain rfl : m' = m := by simpa [terms] using divisor.terms.symm
        exact short divisor.short
      · rw [divide, plainLeft, plainRight, divisorMonomial_eq_ok.mpr terms]
        simp only [Result.ok_bind, if_pos (not_le.mp short)]
        rfl
  · have none : ¬∃ m, b.IsDivisor m := by
      rintro ⟨m, divisor⟩
      exact single ⟨m, divisor.terms⟩
    refine .inl ⟨empty, none, .notScalarMonomial b.display, ?_⟩
    have refused : b.divisorMonomial = .error (.domain (.notScalarMonomial b.display)) := by
      rw [divisorMonomial]
      split
      · rename_i vacant
        exact absurd vacant empty
      · rename_i m terms
        exact absurd ⟨m, terms⟩ single
      · rfl
    rw [divide, plainLeft, plainRight, refused]
    rfl

end Multivector

end Divide

namespace Algebra

/-- Dividing by a scalar monomial with at most one indeterminate undoes the multiplication by it. A divisor
without terms is refused as zero, and any other one that is no such monomial as outside the domain. -/
theorem divide_geometric (A : Algebra) (a b : Multivector) :
    (a.Integral A.dim → b.Integral A.dim → (∃ m, b.IsDivisor m) →
      (do (← A.geometric a b).divide b) = .ok a) ∧
    (a.isPlain = true → b.isPlain = true → b.Canonical →
      (a.divide b = .error .divisionByZero ↔ b.terms = []) ∧
      ((∃ refusal, a.divide b = .error (.domain refusal)) ↔
        b.terms ≠ [] ∧ ¬∃ m, b.IsDivisor m)) := by
  constructor
  · rintro left right ⟨m, divisor⟩
    have degrees : ∀ p ∈ m.powers, Dyadic 0 p.degree ∧ p.degree ≠ 0 := fun p member =>
      right.polynomial.degrees ⟨0, m⟩
        (by simp [Multivector.entries, divisor.terms, Term.entries]) p member
    -- The product exists with its value, and so does its quotient.
    obtain ⟨c, product, polynomial, value⟩ :=
      left.polynomial.exists_product (m := A.metric) .geometric right.polynomial (by decide)
    obtain ⟨d, quotient, polynomial', value'⟩ := polynomial.exists_divide divisor right.plain.1 degrees
      (Nat.zero_le _) (divisor.dyadic_geometric left polynomial value)
    have same : d = a := by
      -- The monomial and its reciprocal are multiplied first, and give one.
      refine polynomial'.eq_of_read left.polynomial ?_
      rw [value', value, divisor.read_eq, Reading.laurent_clifford_assoc (.inl rfl),
        clifford_scalarValue, add_neg_cancel, mul_inv_cancel₀ divisor.nonzero, scalarValue,
        Reading.laurent_clifford_one (.inl rfl)]
    rw [geometric, product, Result.ok_bind, quotient, same]
  · intro left right canonical
    have mechanical {cause : Error} (failed : a.divide b = .error cause)
        (fails : FailsOnly Error.Mechanical (a.divide b)) : Error.Mechanical cause :=
      fails cause failed
    rcases Multivector.divide_cases left right canonical with
      ⟨empty, failed⟩ | ⟨nonempty, none, refusal, failed⟩ | ⟨nonempty, some, fails⟩
    · simp [empty, failed]
    · simp [nonempty, none, failed]
    · -- Neither refusal is one of the failures that are left.
      refine ⟨iff_of_false (fun failed => ?_) nonempty, iff_of_false (fun refused => ?_) fun both =>
        both.2 some⟩
      · cases mechanical failed fails
      · obtain ⟨_, failed⟩ := refused
        cases mechanical failed fails

/-- In a conformal algebra the product of `3 * x² * y * e_o - 5 * e₁ ∧ e_inf` and `7 * x⁻²` is divided by
`7 * x⁻²`, while nothing and `7 * x⁻² + 1` are refused. -/
theorem divide_geometric_conformal :
    let A : Algebra := { metric := .null ⟨2, 1, 0, by decide⟩ (by decide) (by decide) }
    let a : Multivector := { terms := [⟨2, [⟨3, [⟨0, 2⟩, ⟨1, 1⟩]⟩]⟩, ⟨5, [⟨-5, []⟩]⟩] }
    let b : Multivector := { terms := [⟨0, [⟨7, [⟨0, -2⟩]⟩]⟩] }
    let sum : Multivector := { terms := [⟨0, [⟨7, [⟨0, -2⟩]⟩, ⟨1, []⟩]⟩] }
    (a.Integral A.dim ∧ b.Integral A.dim ∧ b.IsDivisor ⟨7, [⟨0, -2⟩]⟩ ∧ sum.Canonical) ∧
      (do (← A.geometric a b).divide b) = .ok a ∧
      a.divide .zero = .error .divisionByZero ∧
      ∃ refusal, a.divide sum = .error (.domain refusal) := by
  intro A a b sum
  have left : a.Integral A.dim := by decide +kernel
  have right : b.Integral A.dim := by decide +kernel
  have divisor : b.IsDivisor ⟨7, [⟨0, -2⟩]⟩ := ⟨rfl, by decide, by decide⟩
  have canonical : sum.Canonical := by decide +kernel
  have zero : Multivector.zero.Canonical := by decide +kernel
  -- Neither zero nor a sum is a divisor, and they are refused for different causes.
  refine ⟨⟨left, right, divisor, canonical⟩, (divide_geometric A a b).1 left right ⟨_, divisor⟩,
    ((divide_geometric A a .zero).2 rfl rfl zero).1.mpr rfl,
    ((divide_geometric A a sum).2 rfl rfl canonical).2.mpr ⟨by simp [sum], ?_⟩⟩
  rintro ⟨m, other⟩
  simpa [sum] using other.terms

end Algebra

end Clifford
