import Clifford.Proofs.Multivector.Fresh
import Clifford.Proofs.Multivector.Scalar
import Mathlib.Algebra.MvPolynomial.Eval

/-! Polynomial values: multivectors with natural degrees have polynomials on their blades, which the
operators carry over and which numbers for the indeterminates evaluate. -/

namespace Clifford

open Finsupp

/-- A power of an indeterminate below a bound, whose degree is a positive natural number. -/
def Power.NaturalBelow (bound : Nat) (p : Power) : Prop :=
  p.id < bound ∧ p.degree.den = 1 ∧ 0 < p.degree

namespace Power

variable {bound : Nat} {p q : Power}

/-- Powers of degree one are natural. -/
theorem NaturalBelow.linear {id : Nat} (inside : id < bound) : (Power.linear id).NaturalBelow bound :=
  ⟨inside, rfl, zero_lt_one⟩

/-- Squares are natural. -/
theorem NaturalBelow.square {id : Nat} (inside : id < bound) : NaturalBelow bound ⟨id, 2⟩ :=
  ⟨inside, rfl, zero_lt_two⟩

/-- Natural powers are admitted by every assignment. -/
theorem NaturalBelow.admitted (natural : p.NaturalBelow bound) (ρ : Nat → Rat) : p.AdmittedBy ρ bound :=
  ⟨natural.1, Dyadic.zero_iff.mpr natural.2.1, .inl natural.2.2.le⟩

/-- Natural powers of one id have a natural product. -/
theorem NaturalBelow.add (left : p.NaturalBelow bound) (right : q.NaturalBelow bound) (same : p.id = q.id) :
    NaturalBelow bound ⟨p.id, p.degree + q.degree⟩ :=
  have sum := (left.admitted 0).add (right.admitted 0) same
  ⟨sum.1, Dyadic.zero_iff.mp sum.2.1, add_pos left.2.2 right.2.2⟩

/-- The polynomial of a natural power. -/
noncomputable def polynomial (p : Power) : MvPolynomial Nat Rat := .X p.id ^ p.degree.num.toNat

/-- The polynomials of natural powers of one id multiply where their degrees are added. -/
theorem polynomial_add (left : p.NaturalBelow bound) (right : q.NaturalBelow bound) (same : p.id = q.id) :
    polynomial ⟨p.id, p.degree + q.degree⟩ = p.polynomial * q.polynomial := by
  show MvPolynomial.X p.id ^ (p.degree + q.degree).num.toNat = _
  -- Whole degrees are added as numerators, and none of these is negative.
  rw [num_add (left.admitted 0).2.1 (right.admitted 0).2.1,
    Int.toNat_add (Rat.num_nonneg.mpr left.2.2.le) (Rat.num_nonneg.mpr right.2.2.le), pow_add, polynomial,
    polynomial, same]

/-- At an assignment the polynomial of a natural power has the value of the power. -/
theorem eval_polynomial (natural : p.NaturalBelow bound) (ρ : Nat → Rat) :
    MvPolynomial.eval ρ p.polynomial = p.valueAt ρ := by
  rw [polynomial, map_pow, MvPolynomial.eval_X, valueAt, ← zpow_natCast,
    Int.toNat_of_nonneg (Rat.num_nonneg.mpr natural.2.2.le)]

end Power

/-- Natural powers as polynomials. -/
noncomputable def PowerValue.polynomial (bound : Nat) : PowerValue (MvPolynomial Nat Rat) where
  value := Power.polynomial
  Admits := Power.NaturalBelow bound
  whole natural := Dyadic.zero_iff.mpr natural.2.1
  admits_add := Power.NaturalBelow.add
  value_add := Power.polynomial_add
  value_zero zero := by simp [Power.polynomial, zero]

/-- The reading as polynomials. -/
noncomputable def Reading.polynomial : Reading (MvPolynomial Nat Rat) where
  value powers := (powers.map Power.polynomial).prod
  mul := LinearMap.mul Rat (MvPolynomial Nat Rat)

namespace Reading

@[simp] theorem polynomial_nil : polynomial.value [] = 1 := by
  simp [polynomial]

@[simp] theorem polynomial_linear (id : Nat) : polynomial.value [.linear id] = .X id := by
  simp [polynomial, Power.polynomial, Power.linear]

@[simp] theorem polynomial_square (id : Nat) : polynomial.value [⟨id, 2⟩] = .X id * .X id := by
  simp [polynomial, Power.polynomial, pow_two]

end Reading

section Powers

variable {bound : Nat} {ps qs : List Power}

/-- Natural powers have a product with natural powers, whose polynomial is the product. -/
theorem exists_natural_product (left : ∀ p ∈ ps, p.NaturalBelow bound)
    (right : ∀ q ∈ qs, q.NaturalBelow bound) :
    ∃ rs, mulPowers ps qs = .ok rs ∧ (∀ r ∈ rs, r.NaturalBelow bound) ∧
      Reading.polynomial.value rs = Reading.polynomial.value ps * Reading.polynomial.value qs :=
  (PowerValue.polynomial bound).exists_mulPowers ps qs left right

/-- The polynomials of natural powers multiply. -/
theorem Reading.multiplies_polynomial (left : ∀ p ∈ ps, p.NaturalBelow bound)
    (right : ∀ q ∈ qs, q.NaturalBelow bound) : polynomial.Multiplies ps qs := by
  intro rs product
  obtain ⟨rs', again, -, value⟩ := exists_natural_product left right
  obtain rfl := Except.ok.inj (again.symm.trans product)
  exact value

/-- At an assignment the polynomial of natural powers has their value. -/
theorem Reading.eval_polynomial (natural : ∀ p ∈ ps, p.NaturalBelow bound) (ρ : Nat → Rat) :
    MvPolynomial.eval ρ (polynomial.value ps) = (assigned ρ).value ps := by
  show MvPolynomial.eval ρ (ps.map Power.polynomial).prod = (ps.map (Power.valueAt ρ)).prod
  rw [map_list_prod, List.map_map]
  exact congrArg List.prod (List.map_congr_left fun p inside => Power.eval_polynomial (natural p inside) ρ)

end Powers

/-- An entry of a space with increasing natural powers and with a coefficient of a small denominator. -/
structure Entry.Fits (dim k bound : Nat) (e : Entry) : Prop where
  element_lt : e.element < dim
  dyadic : Dyadic k e.monomial.coefficient
  increasing : Increasing e.monomial.powers
  natural : ∀ p ∈ e.monomial.powers, p.NaturalBelow bound

namespace Entry

variable {dim k bound element : Nat} {q : Rat}

@[simp] theorem of_element (element : Nat) (q : Rat) (ps : List Power) :
    (of element q ps).element = element := rfl

@[simp] theorem of_coefficient (element : Nat) (q : Rat) (ps : List Power) :
    (of element q ps).monomial.coefficient = q := rfl

@[simp] theorem of_powers (element : Nat) (q : Rat) (ps : List Power) :
    (of element q ps).monomial.powers = ps := rfl

/-- Constants fit. -/
theorem fits_constant (inside : element < dim) (dyadic : Dyadic k q) : (of element q []).Fits dim k bound :=
  ⟨inside, dyadic, .nil, fun _ member => absurd member List.not_mem_nil⟩

/-- Natural powers of one indeterminate fit. -/
theorem fits_power (inside : element < dim) (dyadic : Dyadic k q) {p : Power} (natural : p.NaturalBelow bound) :
    (of element q [p]).Fits dim k bound :=
  ⟨inside, dyadic, List.pairwise_singleton _ _, fun _ member => List.mem_singleton.mp member ▸ natural⟩

end Entry

namespace Multivector

/-- A plain multivector of a space whose blades have the given polynomials, with natural powers of
indeterminates below a bound and coefficients of small denominators. -/
structure HasValue (dim k bound : Nat) (f : Nat →₀ MvPolynomial Nat Rat) (a : Multivector) : Prop where
  plain : a.Plain
  inSpace : a.Over dim k
  natural : ∀ e ∈ a.entries, ∀ p ∈ e.monomial.powers, p.NaturalBelow bound
  value : Reading.polynomial.read a = f

namespace HasValue

variable {dim i j k bound : Nat} {f g : Nat →₀ MvPolynomial Nat Rat} {a b : Multivector}

/-- Nothing is deferred. -/
theorem isPlain (has : a.HasValue dim k bound f) : a.isPlain = true := by
  simp [Multivector.isPlain, has.plain.1]

/-- Entries that fit collate, and have their total as the value. -/
theorem exists_collate (small : k ≤ exactBits) {es : List Entry} (fits : ∀ e ∈ es, e.Fits dim k bound) :
    ∃ a, collate es = .ok a ∧
      a.HasValue dim k bound (weightedSum Reading.polynomial.weight es) := by
  obtain ⟨a, collated, inSpace, plain, source, value⟩ := collate_over dim small
    (fun e inside => (fits e inside).element_lt) (fun e inside => (fits e inside).dyadic)
    (fun e inside => (fits e inside).increasing)
    (fun e inside => exists_key fun p member => ((fits e inside).natural p member |>.admitted 0).2.1)
    .identity 1
  refine ⟨a, collated, plain, inSpace, fun e inside p member => ?_, value Reading.polynomial⟩
  -- The powers are those of the entries.
  obtain ⟨f, given, -, powers⟩ := source e inside
  exact (fits f given).natural p (powers ▸ member)

/-- A fresh scalar is its indeterminate. -/
theorem fresh (nonempty : 0 < dim) (id : Nat) :
    (Multivector.fresh id [0]).HasValue dim 0 (id + 1) (single 0 (.X id)) := by
  have fits : ∀ e ∈ [0].mapIdx fun k element => Entry.of element 1 [Power.linear (id + k)],
      e.Fits dim 0 (id + 1) := by
    intro e member
    obtain rfl := List.mem_singleton.mp member
    exact Entry.fits_power nonempty (.one 0) (.linear (Nat.lt_succ_self id))
  obtain ⟨a, collated, has⟩ := exists_collate (by decide) fits
  obtain rfl : a = Multivector.fresh id [0] :=
    Except.ok.inj (collated.symm.trans (ofElements_eq_fresh (List.pairwise_singleton _ _)))
  simpa [Reading.weight] using has

variable (kind : BladeProduct) {m : Metric}

/-- Products exist, and have the products of the values. -/
theorem exists_product (left : a.HasValue m.dim i bound f) (right : b.HasValue m.dim j bound g)
    (small : i + j + 3 ≤ exactBits) :
    ∃ c, kind.product m a b = .ok c ∧
      c.HasValue m.dim (i + j + 3) bound (Reading.polynomial.clifford kind m f g) := by
  have slack := m.slack_le
  -- Natural degrees are whole, so the product exists.
  obtain ⟨c, product⟩ := BladeProduct.exists_product kind left.inSpace right.inSpace left.plain.1
    right.plain.1 (by omega) fun x first y second => multipliable_of_whole
      (fun p member => ((left.natural x first p member).admitted 0).2.1)
      (fun q member => ((right.natural y second q member).admitted 0).2.1)
  obtain ⟨inSpace, plain, represents⟩ := BladeProduct.product_product (r := Reading.polynomial)
    left.inSpace right.inSpace (by omega) (fun x first y second =>
      Reading.multiplies_polynomial (left.natural x first) (right.natural y second)) product
  refine ⟨c, product, plain, inSpace.mono (by omega), fun e inside p member => ?_, ?_⟩
  · -- The powers of the product are products of natural powers.
    obtain ⟨x, first, y, second, made⟩ := represents.source e inside
    obtain ⟨rs, again, natural, -⟩ :=
      exists_natural_product (left.natural x first) (right.natural y second)
    obtain rfl := Except.ok.inj (again.symm.trans made)
    exact natural p member
  · rw [← left.value, ← right.value]
    exact represents.value

/-- Whole multiples exist on the same blades, and have the multiples of the value. -/
theorem exists_scale (has : a.HasValue dim k bound f) (small : k ≤ exactBits) {q : Rat}
    (whole : Dyadic 0 q) (zero : q ≠ 0) (one : q ≠ 1) :
    ∃ b, a.scale q = .ok b ∧ b.elements = a.elements ∧ b.HasValue dim k bound (q • f) := by
  refine ⟨_, scale_eq_rescaled small has.inSpace has.isPlain whole zero one, by simp [elements, rescaled],
    ⟨rfl, rfl⟩, has.inSpace.rescaled (fun _ => whole) fun _ => zero, fun e inside => ?_, ?_⟩
  · rw [entries_rescaled] at inside
    obtain ⟨f, given, rfl⟩ := List.mem_map.mp inside
    exact has.natural f given
  · -- On each blade both sides are the same multiple.
    rw [read_rescaled, has.value]
    ext1 blade
    rw [bladewise_apply, Finsupp.smul_apply]

/-- Projections exist on their blade alone, and have the value there. -/
theorem exists_extract (has : a.HasValue dim k bound f) (small : k ≤ exactBits) (element : Nat) :
    ∃ b, a.extract element = .ok b ∧ (∀ e ∈ b.elements, e = element) ∧
      b.HasValue dim k bound (single element (f element)) := by
  rcases extract_exactly has.inSpace small element with ⟨t, member, rfl, copied⟩ | ⟨absent, empty⟩
  · -- The term of the blade is copied.
    have inSpace := has.inSpace.term member
    refine ⟨_, copied, by simp [elements], has.plain,
      ⟨⟨inSpace.canonical.terms, inSpace.canonical.ordered⟩, inSpace.bounded, inSpace.dyadic⟩,
      fun e inside => has.natural e (mem_entries member (by simpa [entries] using inside)), ?_⟩
    rw [← has.value, Reading.read_of_term _ has.inSpace.canonical.ordered member, Reading.read_eq_sum]
    simp
  · -- A blade without a term has the value zero.
    refine ⟨_, empty, by simp [elements], has.plain,
      ⟨⟨by simp, .nil⟩, by simp, by simp [DyadicEntries, entries]⟩, by simp [entries], ?_⟩
    have missing : element ∉ a.elements := fun inside => by
      obtain ⟨t, member, same⟩ := List.mem_map.mp inside
      exact absent t member same
    rw [← has.value, Reading.read_of_absent _ missing, single_zero]
    rfl

/-- At an assignment a blade has the value of its polynomial. -/
theorem read_assigned (has : a.HasValue dim k bound f) (ρ : Nat → Rat) (blade : Nat) :
    (Reading.assigned ρ).read a blade = MvPolynomial.eval ρ (f blade) := by
  rw [← has.value, Reading.read, Reading.read]
  have natural := has.natural
  -- Evaluation goes through the total entry by entry.
  generalize a.entries = es at natural ⊢
  induction es with
  | nil => simp
  | cons e rest ih =>
    obtain ⟨own, later⟩ := List.forall_mem_cons.mp natural
    rw [weightedSum_cons, weightedSum_cons, Finsupp.add_apply, Finsupp.add_apply, map_add, ih later,
      Finsupp.smul_apply, Finsupp.smul_apply, MvPolynomial.smul_eval, Reading.weight, Reading.weight]
    by_cases same : e.element = blade
    · simp [same, Reading.eval_polynomial own]
    · simp [same]

end HasValue

end Multivector

end Clifford
