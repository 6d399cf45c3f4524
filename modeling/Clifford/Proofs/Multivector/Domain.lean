import Clifford.Proofs.Failure
import Clifford.Proofs.Multivector.Built
import Clifford.Proofs.Multivector.Totality

/-! Domains of the operators: products, sums and projections of plain multivectors fail mechanically, and
a function or a quotient is refused only where a blade other than the scalar one is stored. -/

namespace Clifford

open Result

/-- The gate fails mechanically. -/
theorem gate_fails (x : Rat) : FailsOnly Error.Mechanical (gate x) := .of_overflow fun _ => gate_error

/-- Total degrees fail mechanically. -/
theorem totalDegree_fails (powers : List Power) : FailsOnly Error.Mechanical (totalDegree powers) :=
  .of_overflow fun _ => totalDegree_error

/-- Collation fails mechanically. -/
theorem collate_fails (entries : List Entry) (op : Deferred) (opScale : Rat) :
    FailsOnly Error.Mechanical (collate entries op opScale) := .of_overflow fun _ => collate_error

/-- Products of powers fail mechanically. -/
theorem mulPowers_fails (ps qs : List Power) : FailsOnly Error.Mechanical (mulPowers ps qs) := by
  -- Only degrees of one id are added, and these only overflow.
  induction ps, qs using mulPowers.induct with
  | case1 qs =>
    rw [mulPowers]
    exact .ok _
  | case2 ps nonempty =>
    rw [mulPowers]
    · exact .ok _
    · exact nonempty
  | case3 p ps q qs less ih =>
    rw [mulPowers, if_pos less]
    exact ih.bind fun _ _ => .ok _
  | case4 p ps q qs notLess greater ih =>
    rw [mulPowers, if_neg notLess, if_pos greater]
    exact ih.bind fun _ _ => .ok _
  | case5 p ps q qs notLess notGreater ih =>
    rw [mulPowers, if_neg notLess, if_neg notGreater]
    exact (gate_fails _).bind fun _ _ => ih.bind fun _ _ => .ok _

/-- Products of monomials fail mechanically. -/
theorem distribute_fails (ms ns : List Monomial) (element : Nat) (sign : Int) :
    FailsOnly Error.Mechanical (distribute ms ns element sign) := by
  refine .bind (.mapM fun m _ => .mapM fun n _ => ?_) fun _ _ => .ok _
  exact (gate_fails _).bind fun _ _ => (mulPowers_fails _ _).bind fun _ _ => .ok _

/-- Quotients of entries fail mechanically. -/
theorem Entry.quotient_fails (e : Entry) (q : Rat) (inverse : List Power) :
    FailsOnly Error.Mechanical (do
      return Entry.of e.element (← gatedMul e.monomial.coefficient q)
        (← mulPowers e.monomial.powers inverse)) :=
  (gate_fails _).bind fun _ _ => (mulPowers_fails _ _).bind fun _ _ => .ok _

namespace Metric

variable (m : Metric) (matrix : PairMatrix) (a : Multivector)

/-- Images of blades fail mechanically. -/
theorem pairImages_fails (blade : Nat) : FailsOnly Error.Mechanical (m.pairImages matrix blade) := by
  -- A determinant is the one thing that is computed.
  rw [pairImages]
  split
  · exact .ok _
  · exact .ok _
  · exact .ok _
  · refine .bind ?_ fun _ _ => .ok _
    exact (gate_fails _).bind fun _ _ => (gate_fails _).bind fun _ _ => gate_fails _

/-- A change of basis fails mechanically. -/
theorem changeBasis_fails : FailsOnly Error.Mechanical (m.changeBasis matrix a) := by
  refine .bind (.mapM fun t _ => ?_) fun _ _ => collate_fails _ _ _
  refine (m.pairImages_fails matrix t.element).bind fun _ _ => ?_
  refine .bind (.mapM fun image _ => .mapM fun mono _ => ?_) fun _ _ => .ok _
  exact (gate_fails _).bind fun _ _ => .ok _

/-- The change to the orthogonal basis fails mechanically. -/
theorem diagonalize_fails : FailsOnly Error.Mechanical (m.diagonalize a) := by
  rw [diagonalize]
  split
  · exact .ok _
  · exact m.changeBasis_fails _ _

/-- The change to the working basis fails mechanically. -/
theorem undiagonalize_fails : FailsOnly Error.Mechanical (m.undiagonalize a) := by
  rw [undiagonalize]
  split
  · exact .ok _
  · exact m.changeBasis_fails _ _

end Metric

namespace BladeProduct

variable (kind : BladeProduct) (m : Metric)

/-- Products of two terms that are looked up directly fail mechanically, even outside the space. -/
theorem directPair_fails (s t : Term) : FailsOnly Error.Mechanical (kind.directPair m s t) := by
  have entry : FailsOnly Error.Mechanical (kind.entry m s.element t.element) := by
    rw [BladeProduct.entry]
    split
    · exact .ok _
    · -- A blade outside the space has no place in the table.
      exact .error .range
  -- A coefficient of zero leaves no monomials to multiply.
  rw [directPair]
  refine entry.bind ?_
  rintro ⟨element, sign⟩ -
  dsimp only
  split
  · exact .ok _
  · exact distribute_fails _ _ _ _

/-- Products over an orthogonal basis fail mechanically. -/
theorem directProduct_fails (ss ts : List Term) :
    FailsOnly Error.Mechanical (kind.directProduct m ss ts) := by
  refine .bind (.mapM fun s _ => .mapM fun t _ => ?_) fun _ _ => collate_fails _ _ _
  exact kind.directPair_fails m s t

/-- Products of two terms fail mechanically, in whichever basis they are taken. -/
theorem termPair_fails (s t : Term) : FailsOnly Error.Mechanical (kind.termPair m s t) := by
  -- Either way all steps fail mechanically, as changes of basis do.
  rw [termPair]
  split
  · refine (m.diagonalize_fails _).bind fun _ _ => (m.diagonalize_fails _).bind fun _ _ => ?_
    refine (kind.directProduct_fails m _ _).bind fun _ _ => ?_
    exact (m.undiagonalize_fails _).bind fun _ _ => .ok _
  · exact kind.directPair_fails m s t

end BladeProduct

namespace Multivector

variable {a b c : Multivector}

/-- A plain multivector is not refused as deferred. -/
theorem requirePlain_fails (plain : a.isPlain = true) {E : Error → Prop} :
    FailsOnly E a.requirePlain := by
  rw [requirePlain, if_pos plain]
  exact .ok _

section Operators

variable {E : Error → Prop} (mechanical : ∀ cause, Error.Mechanical cause → E cause)
include mechanical

/-- Products fail mechanically, or as their operands do where these have to be plain. -/
theorem product_fails (kind : BladeProduct) (m : Metric) (left : FailsOnly E a.requirePlain)
    (right : FailsOnly E b.requirePlain) : FailsOnly E (kind.product m a b) := by
  refine left.bind fun _ _ => right.bind fun _ _ => FailsOnly.mono ?_ mechanical
  refine .bind (.mapM fun s _ => .mapM fun t _ => ?_) fun _ _ => collate_fails _ _ _
  exact kind.termPair_fails m s t

/-- Duals fail mechanically, or as their operand does where it has to be plain. -/
theorem dual_fails (plain : FailsOnly E a.requirePlain) (n : Nat) : FailsOnly E (a.dual n) :=
  plain.bind fun _ _ => (collate_fails _ _ _).mono mechanical

end Operators

/-- Reversals fail as their operand does where it has to be plain. -/
theorem reverse_fails {E : Error → Prop} (plain : FailsOnly E a.requirePlain) :
    FailsOnly E a.reverse :=
  plain.bind fun _ _ => .ok _

/-- Multiples of monomials only fail by overflow. -/
theorem scaleMonomials_overflows (q : Rat) (ms : List Monomial) :
    FailsOnly (· = .quotientOverflow) (scaleMonomials q ms) :=
  .mapM fun _ _ => .bind (fun _ => gate_error) fun _ _ => .ok _

/-- Multiples only fail by overflow. -/
theorem scale_overflows (a : Multivector) (q : Rat) :
    FailsOnly (· = .quotientOverflow) (a.scale q) := by
  -- Multiples by one and by zero need no arithmetic.
  rw [scale]
  split
  · exact .ok _
  split
  · exact .ok _
  split
  · refine .bind (.mapM fun t _ => ?_) fun _ _ => .ok _
    exact (scaleMonomials_overflows q t.monomials).bind fun _ _ => .ok _
  · exact .bind (fun _ => gate_error) fun _ _ => .ok _

/-- Multiples fail mechanically. -/
theorem scale_fails (a : Multivector) (q : Rat) : FailsOnly Error.Mechanical (a.scale q) :=
  .of_overflow (a.scale_overflows q)

/-- Merges of monomials fail mechanically. -/
theorem mergeMonomials_fails (ms ns : List Monomial) :
    FailsOnly Error.Mechanical (mergeMonomials ms ns) := by
  -- Monomials are compared by their keys, which only overflow.
  have keyed (powers : List Power) : FailsOnly Error.Mechanical (MonomialKey.ofPowers powers) :=
    (totalDegree_fails powers).bind fun _ _ => .ok _
  induction ms, ns using mergeMonomials.induct with
  | case1 ns =>
    rw [mergeMonomials]
    exact .ok _
  | case2 ms nonempty =>
    rw [mergeMonomials]
    · exact .ok _
    · exact nonempty
  | case3 m ms n ns ihLeft ihRight ihBoth =>
    rw [mergeMonomials]
    refine (keyed _).bind fun _ _ => (keyed _).bind fun _ _ => ?_
    dsimp only
    split
    · exact ihLeft.bind fun _ _ => .ok _
    · exact ihRight.bind fun _ _ => .ok _
    · exact (gate_fails _).bind fun _ _ => ihBoth.bind fun _ _ => .ok _

/-- Merges of terms fail mechanically. -/
theorem mergeTerms_fails (ss ts : List Term) : FailsOnly Error.Mechanical (mergeTerms ss ts) := by
  -- Only terms on one blade are merged.
  induction ss, ts using mergeTerms.induct with
  | case1 ts =>
    rw [mergeTerms]
    exact .ok _
  | case2 ss nonempty =>
    rw [mergeTerms]
    · exact .ok _
    · exact nonempty
  | case3 s ss t ts less ih =>
    rw [mergeTerms, if_pos less]
    exact ih.bind fun _ _ => .ok _
  | case4 s ss t ts notLess greater ih =>
    rw [mergeTerms, if_neg notLess, if_pos greater]
    exact ih.bind fun _ _ => .ok _
  | case5 s ss t ts notLess notGreater ih =>
    rw [mergeTerms, if_neg notLess, if_neg notGreater]
    exact (mergeMonomials_fails _ _).bind fun _ _ => ih.bind fun _ _ => .ok _

/-- Sums fail mechanically, or as their operands do where these have to be plain. -/
theorem add_fails {E : Error → Prop} (mechanical : ∀ cause, Error.Mechanical cause → E cause)
    (left : FailsOnly E a.requirePlain) (right : FailsOnly E b.requirePlain) :
    FailsOnly E (a.add b) := by
  refine left.bind fun _ _ => right.bind fun _ _ => FailsOnly.mono ?_ mechanical
  exact (mergeTerms_fails _ _).bind fun _ _ => .ok _

/-- Projections fail mechanically. -/
theorem extract_fails (a : Multivector) (element : Nat) :
    FailsOnly Error.Mechanical (a.extract element) := by
  -- A blade that is stored is copied with the factor one, and any other one is absent.
  rw [extract]
  split
  · split
    · refine .bind ?_ fun _ _ => .ok _
      rw [copyTerm, if_neg one_ne_zero]
      exact (FailsOnly.of_overflow (scaleMonomials_overflows _ _)).bind fun _ _ => .ok _
    · exact .ok _
  · exact .ok _

/-- A multiple of something plain is plain. -/
theorem isPlain_scale {q : Rat} (plain : a.isPlain = true) (made : a.scale q = .ok b) :
    b.isPlain = true := by
  -- The branch of deferred functions is not taken.
  rw [scale] at made
  split at made
  · cases made
    exact plain
  split at made
  · cases made
    rfl
  obtain ⟨ts, -, done⟩ := Result.bind_eq_ok.mp made
  cases done
  rfl

/-- A product is plain. -/
theorem isPlain_product {kind : BladeProduct} {m : Metric} (made : kind.product m a b = .ok c) :
    c.isPlain = true := by
  obtain ⟨u, -, rest⟩ := Result.bind_eq_ok.mp made
  obtain ⟨v, -, rest⟩ := Result.bind_eq_ok.mp rest
  obtain ⟨rows, -, collated⟩ := Result.bind_eq_ok.mp rest
  exact decide_eq_true (collate_plain collated).1

/-- A sum is plain. -/
theorem isPlain_add (made : a.add b = .ok c) : c.isPlain = true := by
  obtain ⟨us, -, rfl⟩ := add_eq_ok made
  rfl

/-- A reversal is plain. -/
theorem isPlain_reverse (made : a.reverse = .ok b) : b.isPlain = true := by
  obtain ⟨-, rfl⟩ := reverse_eq_ok made
  rfl

/-- A dual is plain. -/
theorem isPlain_dual {n : Nat} (made : a.dual n = .ok b) : b.isPlain = true := by
  obtain ⟨u, -, collated⟩ := Result.bind_eq_ok.mp made
  exact decide_eq_true (collate_plain collated).1

/-- A projection keeps what is deferred. -/
theorem isPlain_extract {element : Nat} (made : a.extract element = .ok b) :
    b.isPlain = a.isPlain := by
  rw [extract] at made
  split at made
  · split at made
    · obtain ⟨ts, -, done⟩ := Result.bind_eq_ok.mp made
      cases done
      rfl
    · cases made
      rfl
  · cases made
    rfl

/-- What is on the scalar blade is a single monomial with at most one indeterminate. -/
def Atomic (a : Multivector) : Prop :=
  ∀ t ∈ a.shape, t.1 = 0 → ∃ ps, t.2 = [ps] ∧ ps.length ≤ 1

/-- Nothing on the scalar blade is atomic. -/
theorem atomic_zero : zero.Atomic := by
  intro t inside
  simp [shape, zero] at inside

/-- A multiple of something atomic is atomic. -/
theorem Atomic.scale {q : Rat} (atomic : a.Atomic) (made : a.scale q = .ok b) : b.Atomic := by
  -- A multiple has the same shape or none.
  rcases shape_scale made with same | rfl
  · rw [Atomic, same]
    exact atomic
  · exact atomic_zero

/-- A single short monomial is atomic. -/
theorem atomic_single {element : Nat} {m : Monomial} (short : m.powers.length ≤ 1) :
    Atomic { terms := [⟨element, [m]⟩] } := by
  intro t inside _
  obtain rfl := List.mem_singleton.mp inside
  exact ⟨_, rfl, short⟩

/-- Fresh indeterminates are atomic. -/
theorem atomic_fresh (id : Nat) (blades : List Nat) : (fresh id blades).Atomic := by
  intro t inside _
  obtain ⟨s, member, rfl⟩ := List.mem_map.mp inside
  obtain ⟨k, -, rfl⟩ := List.mem_mapIdx.mp member
  exact ⟨_, rfl, le_rfl⟩

/-- Collation of short monomials is atomic, if those on the scalar blade have the same powers. -/
theorem atomic_collate {es : List Entry} (short : ∀ e ∈ es, e.monomial.powers.length ≤ 1)
    (alike : ∀ e ∈ es, ∀ f ∈ es, e.element = 0 → f.element = 0 →
      e.monomial.powers = f.monomial.powers) (collated : collate es = .ok a) : a.Atomic := by
  -- At most one power is in order, so the collation is canonical.
  have canonical := collate_canonical (fun e inside => increasing_of_short (short e inside)) collated
  obtain ⟨ts, terms, done⟩ := Result.bind_eq_ok.mp collated
  cases done
  intro shape inside scalar
  obtain ⟨t, member, rfl⟩ := List.mem_map.mp inside
  -- Every monomial of the term has the powers of a given entry on the same blade.
  have source : ∀ m ∈ t.monomials, ∃ e ∈ es, e.element = 0 ∧ e.monomial.powers = m.powers := by
    intro m monomial
    obtain ⟨e, given, blade, same⟩ := collateTerms_mem terms ⟨t.element, m⟩
      (mem_entries member (List.mem_map_of_mem monomial))
    exact ⟨e, given, blade.trans scalar, same⟩
  have term := canonical.terms t member
  obtain ⟨m, others, split⟩ := List.exists_cons_of_ne_nil term.nonempty
  have ordered := term.ordered
  rw [split] at source ordered
  rw [termShape, split]
  obtain ⟨e, first, blade, powers⟩ := source m List.mem_cons_self
  refine ⟨m.powers, ?_, powers ▸ short e first⟩
  cases others with
  | nil => rfl
  | cons n rest =>
    -- A second monomial would have the same powers, and so would not come after the first one.
    obtain ⟨f, second, blade', powers'⟩ := source n (by simp)
    have same : m.powers = n.powers := by
      rw [← powers, ← powers']
      exact alike e first f second blade blade'
    have before := List.rel_of_pairwise_cons ordered List.mem_cons_self
    rw [Monomial.Before, ← same] at before
    exact absurd before (Monomial.Before.irrefl m)

/-- A blade other than the scalar one is stored. -/
def HasNonscalar (a : Multivector) : Prop := ∃ e ∈ a.elements, e ≠ 0

/-- Without other blades there is nothing but the scalar one. -/
theorem terms_of_scalar (ordered : a.elements.Pairwise (· < ·)) (scalar : ¬ a.HasNonscalar) :
    a.terms = [] ∨ ∃ ms, a.terms = [⟨0, ms⟩] := by
  obtain ⟨terms, op, opScale⟩ := a
  have zero : ∀ t ∈ terms, t.element = 0 := by
    intro t inside
    by_contra other
    exact scalar ⟨t.element, List.mem_map_of_mem inside, other⟩
  cases terms with
  | nil => exact .inl rfl
  | cons s rest =>
    obtain ⟨element, ms⟩ := s
    obtain rfl : element = 0 := zero ⟨element, ms⟩ List.mem_cons_self
    cases rest with
    | nil => exact .inr ⟨ms, rfl⟩
    | cons t rest =>
      -- A second blade would lie above the first one.
      have above : 0 < t.element := List.rel_of_pairwise_cons ordered (by simp)
      exact absurd (zero t (by simp)) above.ne'

/-- A function of a plain multivector is only refused where another blade is stored. -/
theorem withOp_refuses (plain : a.isPlain = true) (ordered : a.elements.Pairwise (· < ·))
    (op : Deferred) :
    RefusesOnly (fun refusal => refusal = .notScalar op a.elements ∧ a.HasNonscalar) (a.withOp op) := by
  rw [withOp, plain]
  split
  · contradiction
  split
  · -- The refusal speaks of several blades, or of one that is not the scalar one.
    rename_i refused
    refine .domain ⟨rfl, ?_⟩
    by_contra scalar
    rcases terms_of_scalar ordered scalar with none | ⟨ms, one⟩
    · simp [none] at refused
    · simp [one] at refused
  split
  · exact .ok _
  · exact .ok _

/-- What a quotient refuses of a scalar: anything but a single monomial, or several indeterminates in
it. -/
inductive RefusedScalar (b : Multivector) : DomainError → Prop
  | monomials {ms : List Monomial} (terms : b.terms = [⟨0, ms⟩]) (several : ms.length ≠ 1) :
    RefusedScalar b (.notScalarMonomial b.display)
  | indeterminates {m : Monomial} (terms : b.terms = [⟨0, [m]⟩]) (several : 1 < m.powers.length) :
    RefusedScalar b (.manyIndeterminates m.powers.length)

/-- A quotient does not refuse an atomic scalar. -/
theorem Atomic.not_refusedScalar {refusal : DomainError} (atomic : b.Atomic) :
    ¬ b.RefusedScalar refusal := by
  intro refused
  -- The powers on the scalar blade are those of a single monomial, which has at most one.
  have stored {ms : List Monomial} (terms : b.terms = [⟨0, ms⟩]) :
      ∃ ps, ms.map (·.powers) = [ps] ∧ ps.length ≤ 1 :=
    atomic (0, ms.map (·.powers)) (by simp [shape, termShape, terms]) rfl
  cases refused with
  | monomials terms several =>
    obtain ⟨ps, single, -⟩ := stored terms
    exact several (by simpa using congrArg List.length single)
  | indeterminates terms several =>
    obtain ⟨ps, single, short⟩ := stored terms
    obtain rfl := List.singleton_inj.mp single
    exact absurd several (not_lt.mpr short)

/-- A plain divisor is refused where another blade is stored, or as a scalar. -/
theorem divide_refuses (left : a.isPlain = true) (right : b.isPlain = true)
    (ordered : b.elements.Pairwise (· < ·)) :
    RefusesOnly (fun refusal => refusal = .notScalarMonomial b.display ∧ b.HasNonscalar ∨
      b.RefusedScalar refusal) (a.divide b) := by
  -- The divisor is refused unless it is a single monomial on the scalar blade.
  have divisor : RefusesOnly (fun refusal => refusal = .notScalarMonomial b.display ∧ b.HasNonscalar ∨
      b.RefusedScalar refusal) b.divisorMonomial := by
    rw [divisorMonomial]
    split
    · -- A division by zero is no refusal.
      intro refusal failed
      cases failed
    · exact .ok _
    · rename_i nonempty several
      refine .domain ?_
      by_cases scalar : b.HasNonscalar
      · exact .inl ⟨rfl, scalar⟩
      · rcases terms_of_scalar ordered scalar with none | ⟨ms, one⟩
        · exact absurd none nonempty
        · refine .inr (.monomials one fun single => ?_)
          obtain ⟨m, rfl⟩ := List.length_eq_one_iff.mp single
          exact several m one
  refine (requirePlain_fails left).unrefused.bind fun _ _ =>
    (requirePlain_fails right).unrefused.bind fun _ _ => ?_
  -- Behind the single monomial, its indeterminates are counted.
  refine divisor.bind fun m found => ?_
  split
  · rename_i several
    exact .domain (.inr (.indeterminates (divisorMonomial_eq_ok.mp found) several))
  refine .bind ?_ fun q _ => .bind (.mapM fun e _ => ?_) fun _ _ => (collate_fails _ _ _).unrefused
  · rw [reciprocal]
    split
    · intro refusal failed
      cases failed
    · exact .ok _
  · exact (e.quotient_fails q _).unrefused

end Multivector

end Clifford
