import Clifford.Proofs.Multivector.Operators

/-! Parts of multivectors on a blade, deferred functions and quotients: what they denote. -/

namespace Clifford

open Finsupp

/-- A function is deferred for a plain multivector of one term on the scalar blade, and known for one without
terms. -/
theorem Multivector.withOp_eq_ok {a b : Multivector} {op : Deferred} :
    a.withOp op = .ok b ↔ a.isPlain = true ∧
      ((a.elements = [] ∧ b = if op = .cos then scalar 1 else zero) ∨
        a.elements = [0] ∧ b = { terms := a.terms, op := op }) := by
  constructor
  · -- A function is deferred only of a plain multivector, and only on the scalar blade.
    intro made
    rw [withOp] at made
    split at made
    · cases made
    rename_i plain
    split at made
    · cases made
    rename_i onScalar
    refine ⟨by simpa using plain, ?_⟩
    split at made
    · rename_i empty
      cases made
      exact .inl ⟨by rw [elements, List.isEmpty_iff.mp empty]; rfl, rfl⟩
    · rename_i nonempty
      cases made
      -- There is one term at least, one at most, and it is on the scalar blade.
      simp only [Bool.not_eq_true, Bool.or_eq_false_iff, List.any_eq_false, decide_eq_true_eq,
        decide_eq_false_iff_not, not_lt, not_not] at onScalar
      have := List.length_pos_iff.mpr (mt List.isEmpty_iff.mpr nonempty)
      obtain ⟨t, single⟩ := List.length_eq_one_iff.mp (by omega : a.terms.length = 1)
      have element : t.element = 0 := onScalar.2 t (by simp [single])
      exact .inr ⟨by rw [elements, single, List.map_singleton, element], rfl⟩
  · rintro ⟨plain, ⟨empty, rfl⟩ | ⟨single, rfl⟩⟩
    · simp [withOp, plain, List.map_eq_nil_iff.mp empty, isZero]
    · obtain ⟨t, terms, element⟩ := List.map_eq_singleton_iff.mp single
      simp [withOp, plain, terms, element, isZero]

/-- A deferred function of a scalar multivector denotes its value. -/
theorem Multivector.Denotes.deferred {A : Algebra} {F : Functions A.dim} {ρ : Nat → Rat}
    {bound : Nat} {a b : Multivector} {x y : Dense} {op : Deferred} (function : op ≠ .identity)
    (denotes : a.Denotes F ρ bound x) (made : a.withOp op = .ok b)
    (value : F.scalar A op x = some y) : b.Denotes F ρ bound y := by
  obtain ⟨number, found, rfl⟩ : ∃ number, F.number op (x 0) = some number ∧
      y = .onBlade 0 number := by
    rw [Functions.scalar] at value
    split at value
    · obtain ⟨number, found, done⟩ := Option.bind_eq_some_iff.mp value
      exact ⟨number, found, (Option.some.inj done).symm⟩
    · cases value
  obtain ⟨plain, ⟨empty, rfl⟩ | ⟨single, rfl⟩⟩ := withOp_eq_ok.mp made
  · -- The function of a multivector without terms is its value at zero.
    have none : x 0 = 0 := denotes.absent (by simp [empty])
    rw [none, F.number_zero op function] at found
    cases found
    split
    · exact Denotes.basis A.metric.dim_pos (Dyadic.one 0)
    · have vanishes : Dense.onBlade 0 0 = 0 := by
        funext b
        simp [Dense.onBlade]
      rw [vanishes]
      exact zero
  · -- Otherwise there is one term, on the scalar blade.
    have blades : elements { terms := a.terms, op := op } = [0] := single
    have inSpace := denotes.inSpace
    refine ⟨⟨⟨inSpace.canonical.terms, inSpace.canonical.ordered⟩, inSpace.bounded,
      inSpace.dyadic⟩, Dyadic.one 0, denotes.admitted, fun blade => ?_⟩
    have argument : (Reading.assigned ρ).read { terms := a.terms, op := op } 0 = x 0 :=
      congrFun (denotes.read plain) 0
    -- The function is not known, so the coefficient is its number.
    have unknown : Multivector.isPlain { terms := a.terms, op := op } = false := by
      simpa [isPlain] using function
    by_cases same : blade = 0
    · have present : blade ∈ elements { terms := a.terms, op := op } := by
        simp [blades, same]
      rw [coefficientAt, if_pos present, unknown, if_neg Bool.false_ne_true, same, argument, found]
      simp [Dense.onBlade]
    · have missing : blade ∉ elements { terms := a.terms, op := op } := by
        simp [blades, same]
      rw [coefficientAt, if_neg missing, Dense.onBlade, if_neg same]

namespace Multivector

/-- A binary search in an increasing list ends where the smaller entries end. -/
theorem searchFrom_spec {xs : List Nat} (sorted : xs.Pairwise (· < ·)) (element lo hi : Nat) :
    hi ≤ xs.length → lo ≤ hi → (∀ i < lo, xs.getD i 0 < element) →
    (∀ i, hi ≤ i → i < xs.length → element ≤ xs.getD i 0) →
    (∀ i < searchFrom xs.toArray element lo hi, xs.getD i 0 < element) ∧
      ∀ i, searchFrom xs.toArray element lo hi ≤ i → i < xs.length → element ≤ xs.getD i 0 := by
  -- Either half keeps the bounds, since the list increases.
  have increasing : ∀ i j, i ≤ j → j < xs.length → xs.getD i 0 ≤ xs.getD j 0 := by
    intro i j le inside
    rw [List.getD_eq_getElem _ _ (by omega), List.getD_eq_getElem _ _ inside]
    rcases Nat.eq_or_lt_of_le le with rfl | less
    · exact le_rfl
    · exact (List.pairwise_iff_getElem.mp sorted i j (by omega) inside less).le
  have entry (i : Nat) : xs.toArray.getD i 0 = xs.getD i 0 := by
    simp [Array.getD_eq_getD_getElem?, List.getD_eq_getElem?_getD]
  -- The search halves the interval until it is empty, and keeps what is known outside of it.
  induction lo, hi using searchFrom.induct xs.toArray element with
  | case1 lo hi open_ mid less ih =>
    intro inside le below above
    rw [searchFrom, dif_pos open_, if_pos less]
    rw [entry] at less
    refine ih inside (by omega) (fun i small => ?_) above
    exact (increasing i mid (by omega) (by omega)).trans_lt less
  | case2 lo hi open_ mid notLess ih =>
    intro inside le below above
    rw [searchFrom, dif_pos open_, if_neg notLess]
    rw [entry] at notLess
    refine ih (by omega) (by omega) below fun i large bound => ?_
    exact (not_lt.mp notLess).trans (increasing mid i large bound)
  | case3 lo hi closed =>
    intro inside le below above
    rw [searchFrom, dif_neg closed]
    exact ⟨below, fun i large bound => above i (by omega) bound⟩

/-- The search in the blades of a multivector finds every term. -/
theorem searchFrom_elements {a : Multivector} (ordered : a.elements.Pairwise (· < ·)) {t : Term}
    (member : t ∈ a.terms) :
    a.terms[searchFrom a.elements.toArray t.element 0 a.terms.length]? = some t := by
  obtain ⟨below, above⟩ := searchFrom_spec ordered t.element 0 a.terms.length
    (by simp [elements]) (Nat.zero_le _) (by omega) (by simp [elements]; omega)
  -- The end of the search is the only position that fits to the blade of the term.
  obtain ⟨i, inside, rfl⟩ := List.getElem_of_mem member
  have entry : a.elements.getD i 0 = (a.terms[i]).element := by
    simp [elements, List.getD_eq_getElem?_getD, inside]
  -- The position of the term is not below the end of the search, and not above it either.
  generalize searchFrom a.elements.toArray (a.terms[i]).element 0 a.terms.length = found at below above
  have reached : found ≤ i := by
    by_contra passed
    have := below i (by omega)
    omega
  have exact_ : i ≤ found := by
    by_contra early
    have inside' : i < a.elements.length := by simpa [elements] using inside
    have small : found < a.elements.length := by omega
    have least := above found le_rfl small
    have less := List.pairwise_iff_getElem.mp ordered found i small inside' (by omega)
    have first : a.elements.getD found 0 = a.elements[found] := List.getD_eq_getElem _ _ _
    have second : a.elements[i] = (a.terms[i]).element := by simp [elements]
    omega
  obtain rfl : found = i := le_antisymm reached exact_
  exact List.getElem?_eq_getElem inside

/-- A projection copies the term on its blade, or has no terms where there is none. -/
theorem extract_eq_ok {a b : Multivector} {element : Nat} (ordered : a.elements.Pairwise (· < ·))
    (made : a.extract element = .ok b) :
    (∃ t ∈ a.terms, t.element = element ∧ ∃ ms, scaleMonomials 1 t.monomials = .ok ms ∧
      b = { a with terms := [⟨element, ms⟩] }) ∨
    (∀ t ∈ a.terms, t.element ≠ element) ∧ b = { a with terms := [] } := by
  rw [extract] at made
  by_cases present : ∃ t ∈ a.terms, t.element = element
  · obtain ⟨t, member, rfl⟩ := present
    rw [searchFrom_elements ordered member] at made
    simp only [if_true, copyTerm, if_neg (one_ne_zero (α := Rat))] at made
    obtain ⟨ts, copied, done⟩ := Result.bind_eq_ok.mp made
    obtain ⟨ms, scaled, row⟩ := Result.bind_eq_ok.mp copied
    cases row
    cases done
    exact .inl ⟨t, member, rfl, ms, scaled, rfl⟩
  · -- Wherever the search ends, the term there is on another blade.
    refine .inr ⟨fun t member same => present ⟨t, member, same⟩, ?_⟩
    split at made
    · rename_i t found
      rw [if_neg fun same => present ⟨t, List.mem_of_getElem? found, same⟩] at made
      cases made
      rfl
    · cases made
      rfl

/-- A projection of coefficients of small denominators takes the term on its blade as it is. -/
theorem extract_exactly {dim k : Nat} {a : Multivector} (inSpace : a.Over dim k) (small : k ≤ exactBits)
    (element : Nat) :
    (∃ t ∈ a.terms, t.element = element ∧ a.extract element = .ok { a with terms := [t] }) ∨
      (∀ t ∈ a.terms, t.element ≠ element) ∧ a.extract element = .ok { a with terms := [] } := by
  -- The copy of a term multiplies its coefficients by one.
  have scaled {t : Term} (member : t ∈ a.terms) : scaleMonomials 1 t.monomials = .ok t.monomials := by
    rw [scaleMonomials_eq_ok small (Dyadic.one 0) fun m inside =>
      inSpace.dyadic_term member ⟨t.element, m⟩ (List.mem_map_of_mem inside)]
    simp
  obtain ⟨b, made⟩ : ∃ b, a.extract element = .ok b := by
    rw [extract]
    split
    · rename_i t found
      rw [copyTerm, if_neg one_ne_zero, scaled (List.mem_of_getElem? found)]
      split <;> exact ⟨_, rfl⟩
    · exact ⟨_, rfl⟩
  rcases extract_eq_ok inSpace.canonical.ordered made with ⟨t, member, rfl, ms, copied, rfl⟩ | ⟨absent, rfl⟩
  · obtain rfl := Except.ok.inj ((scaled member).symm.trans copied)
    exact .inl ⟨t, member, rfl, made⟩
  · exact .inr ⟨absent, made⟩

section Extract

variable {dim : Nat} {F : Functions dim} {ρ : Nat → Rat} {bound : Nat} {a b : Multivector}
  {x : Dense}

/-- A single term of a multivector denotes its coefficient. -/
theorem Denotes.term (denotes : a.Denotes F ρ bound x) {t : Term} (member : t ∈ a.terms) :
    Denotes F ρ bound { a with terms := [t] } (x.component t.element) := by
  have inSpace := denotes.inSpace.term member
  refine ⟨⟨⟨inSpace.canonical.terms, inSpace.canonical.ordered⟩, inSpace.bounded, inSpace.dyadic⟩,
    denotes.scale, fun e inside => ?_, fun blade => ?_⟩
  · refine denotes.admitted e (mem_entries member ?_)
    simpa [entries] using inside
  · by_cases same : blade = t.element
    · -- On the blade of the term both have the sum of its monomials.
      have coefficient := denotes.coefficient blade
      have value : (Reading.assigned ρ).read { a with terms := [t] } blade =
          (Reading.assigned ρ).read a blade := by
        rw [same, Reading.read_of_term _ denotes.inSpace.canonical.ordered member]
        exact Reading.read_of_term _ (List.pairwise_singleton _ _) (List.mem_singleton_self t)
      rw [coefficientAt, if_pos (by simp [elements, same]), value]
      rw [coefficientAt, if_pos (same ▸ List.mem_map_of_mem member)] at coefficient
      rw [Dense.component, Dense.onBlade, if_pos same, ← same]
      exact coefficient
    · rw [coefficientAt, if_neg (by simpa [elements] using same), Dense.component, Dense.onBlade,
        if_neg same]

/-- Without terms nothing is denoted but zero, whatever is deferred. -/
theorem Denotes.empty (denotes : a.Denotes F ρ bound x) :
    Denotes F ρ bound { a with terms := [] } 0 := by
  refine ⟨⟨⟨?_, ?_⟩, ?_, ?_⟩, denotes.scale, ?_, fun blade => ?_⟩
  all_goals simp [coefficientAt, elements, entries, DyadicEntries, AdmittedEntries]

/-- A part on a blade denotes the coefficient there. -/
theorem Denotes.extracted (denotes : a.Denotes F ρ bound x) {element : Nat}
    (made : a.extract element = .ok b) : b.Denotes F ρ bound (x.component element) := by
  rcases extract_exactly denotes.inSpace (by decide) element with
    ⟨t, member, rfl, copied⟩ | ⟨absent, empty⟩
  · obtain rfl := Except.ok.inj (copied.symm.trans made)
    exact denotes.term member
  · have missing : element ∉ a.elements := fun inside =>
      have ⟨t, member, same⟩ := List.mem_map.mp inside
      absent t member same
    -- A blade without a term denotes nothing.
    have vanishes : x.component element = 0 := by
      funext blade
      simp [Dense.component, Dense.onBlade, denotes.absent missing]
    obtain rfl := Except.ok.inj (empty.symm.trans made)
    rw [vanishes]
    exact denotes.empty

end Extract

end Multivector

section Divide

variable {ρ : Nat → Rat} {bound : Nat}

/-- The reciprocal of a power that is not zero is admitted. -/
theorem Power.AdmittedBy.inverse {p : Power} (admitted : p.AdmittedBy ρ bound)
    (nonzero : p.valueAt ρ ≠ 0) : p.inverse.AdmittedBy ρ bound := by
  refine ⟨admitted.1, admitted.2.1.neg, ?_⟩
  by_cases base : ρ p.id = 0
  · -- Only the power of degree zero of zero is not zero.
    have degree : p.degree = 0 := by
      by_contra other
      refine nonzero ?_
      rw [valueAt, base, zero_zpow _ (Rat.num_ne_zero.mpr other)]
    exact .inl (by simp [Power.inverse, degree])
  · exact .inr base

/-- The value of a reciprocal is the reciprocal of the value. -/
theorem Power.valueAt_inverse (p : Power) : p.inverse.valueAt ρ = (p.valueAt ρ)⁻¹ := by
  show ρ p.id ^ (-p.degree).num = (ρ p.id ^ p.degree.num)⁻¹
  rw [Rat.neg_num, zpow_neg]

/-- The value of reciprocals is the reciprocal of the value. -/
theorem Reading.assigned_inverse (powers : List Power) :
    (assigned ρ).value (powers.map Power.inverse) = ((assigned ρ).value powers)⁻¹ := by
  show ((powers.map Power.inverse).map _).prod = ((powers.map _).prod)⁻¹
  induction powers with
  | nil => simp
  | cons p rest ih =>
    simp only [List.map_cons, List.prod_cons]
    rw [ih, Power.valueAt_inverse, mul_inv]

variable {dim : Nat} {F : Functions dim} {a b c : Multivector} {x y : Dense}

/-- The monomial of a divisor is all that it has. -/
theorem Multivector.divisorMonomial_eq_ok {m : Monomial} :
    b.divisorMonomial = .ok m ↔ b.terms = [⟨0, [m]⟩] := by
  constructor
  · intro found
    rw [divisorMonomial] at found
    split at found <;> cases found
    assumption
  · intro terms
    rw [divisorMonomial, terms]
    rfl

/-- A divisor is a single monomial on the scalar blade, whose value is the number divided by. -/
theorem Multivector.Denotes.divisor (denotes : b.Denotes F ρ bound y) (plain : b.isPlain = true)
    {m : Monomial} (found : b.divisorMonomial = .ok m) :
    b.terms = [⟨0, [m]⟩] ∧ y 0 = m.coefficient * (Reading.assigned ρ).value m.powers := by
  have terms := divisorMonomial_eq_ok.mp found
  refine ⟨terms, ?_⟩
  have term : (⟨0, [m]⟩ : Term) ∈ b.terms := by simp [terms]
  rw [← denotes.read plain]
  have value := (Reading.assigned ρ).read_of_term denotes.inSpace.canonical.ordered term
  rw [value]
  simp [Reading.sum]

/-- The quotient of one entry by a monomial. -/
def Entry.quotient (m : Monomial) (e : Entry) : Result Entry := do
  return Entry.of e.element (← gatedMul e.monomial.coefficient m.coefficient⁻¹)
    (← mulPowers e.monomial.powers (m.powers.map Power.inverse))

/-- The quotient of an entry whose coefficient the gate keeps. -/
theorem Entry.quotient_eq_ok {k : Nat} (small : k ≤ exactBits) {m : Monomial} {e f : Entry}
    (dyadic : Dyadic k (e.monomial.coefficient * m.coefficient⁻¹)) :
    Entry.quotient m e = .ok f ↔ f.element = e.element ∧
      f.monomial.coefficient = e.monomial.coefficient * m.coefficient⁻¹ ∧
        mulPowers e.monomial.powers (m.powers.map Power.inverse) = .ok f.monomial.powers := by
  -- The coefficient is exact, so only the powers have to be multiplied.
  rw [Entry.quotient, gatedMul, gate_eq_ok dyadic small, Result.ok_bind]
  constructor
  · intro made
    obtain ⟨powers, product, done⟩ := Result.bind_eq_ok.mp made
    cases done
    exact ⟨rfl, rfl, product⟩
  · rintro ⟨element, coefficient, product⟩
    obtain ⟨_, _, _⟩ := f
    rw [product, ← element, ← coefficient]
    rfl

/-- Every quotient stands for an entry, with its blade and a product of its powers. -/
theorem Entry.quotient_source {k : Nat} (small : k ≤ exactBits) {m : Monomial} {es fs : List Entry}
    (dyadic : ∀ e ∈ es, Dyadic k (e.monomial.coefficient * m.coefficient⁻¹))
    (mapped : es.mapM (Entry.quotient m) = .ok fs) :
    ∀ f ∈ fs, ∃ e ∈ es, f.element = e.element ∧
      f.monomial.coefficient = e.monomial.coefficient * m.coefficient⁻¹ ∧
        mulPowers e.monomial.powers (m.powers.map Power.inverse) = .ok f.monomial.powers := by
  intro f inside
  obtain ⟨e, given, made⟩ := Result.exists_of_mem_mapM mapped inside
  exact ⟨e, given, (Entry.quotient_eq_ok small (dyadic e given)).mp made⟩

/-- A quotient collates the quotients of all entries by the monomial of the divisor. -/
theorem Multivector.divide_eq_ok (made : a.divide b = .ok c) :
    a.isPlain = true ∧ b.isPlain = true ∧ ∃ m quotients, b.divisorMonomial = .ok m ∧
      m.powers.length ≤ 1 ∧ a.entries.mapM (Entry.quotient m) = .ok quotients ∧
        collate quotients = .ok c := by
  obtain ⟨u, plainLeft, rest⟩ := Result.bind_eq_ok.mp made
  obtain ⟨v, plainRight, rest⟩ := Result.bind_eq_ok.mp rest
  obtain ⟨m, found, rest⟩ := Result.bind_eq_ok.mp rest
  -- Of the steps that may refuse, none has.
  refine ⟨Multivector.isPlain_of_require plainLeft, Multivector.isPlain_of_require plainRight, m, ?_⟩
  split at rest
  · obtain ⟨w, failed, -⟩ := Result.bind_eq_ok.mp rest
    cases failed
  rename_i short
  obtain ⟨q, reciprocal, rest⟩ := Result.bind_eq_ok.mp rest
  obtain ⟨quotients, mapped, collated⟩ := Result.bind_eq_ok.mp rest
  rw [Clifford.reciprocal] at reciprocal
  split at reciprocal
  · cases reciprocal
  cases reciprocal
  exact ⟨quotients, found, not_lt.mp short, mapped, collated⟩

/-- A single power is in order. -/
theorem increasing_of_short {powers : List Power} (short : powers.length ≤ 1) : Increasing powers := by
  rcases powers with _ | ⟨p, _ | ⟨q, rest⟩⟩
  · exact List.Pairwise.nil
  · exact List.pairwise_singleton _ _
  · simp at short

/-- The quotient of an entry has its value, divided by that of the monomial. -/
theorem Entry.assigned_quotient {m : Monomial} {e f : Entry}
    (dyadic : Dyadic 0 (e.monomial.coefficient * m.coefficient⁻¹))
    (left : ∀ p ∈ e.monomial.powers, p.AdmittedBy ρ bound)
    (right : ∀ p ∈ m.powers.map Power.inverse, p.AdmittedBy ρ bound)
    (made : Entry.quotient m e = .ok f) :
    f.monomial.coefficient • (Reading.assigned ρ).weight f.element f.monomial.powers =
      (m.coefficient * (Reading.assigned ρ).value m.powers)⁻¹ •
        e.monomial.coefficient • (Reading.assigned ρ).weight e.element e.monomial.powers := by
  obtain ⟨element, coefficient, product⟩ := (Entry.quotient_eq_ok (by decide) dyadic).mp made
  have value := Reading.multiplies_assigned left right _ product
  rw [Reading.assigned_inverse] at value
  -- The reciprocal of the coefficient is in the coefficient, and that of the powers in the powers.
  rw [Reading.weight, Reading.weight, value, element, coefficient]
  simp only [smul_single]
  congr 1
  show _ * ((Reading.assigned ρ).value _ * ((Reading.assigned ρ).value _)⁻¹) = _ * (_ * _)
  rw [mul_inv]
  ring

/-- The quotients of entries have their value, divided by that of the monomial. -/
theorem weightedSum_assigned_quotient {m : Monomial} {es fs : List Entry}
    (dyadic : ∀ e ∈ es, Dyadic 0 (e.monomial.coefficient * m.coefficient⁻¹))
    (left : ∀ e ∈ es, ∀ p ∈ e.monomial.powers, p.AdmittedBy ρ bound)
    (right : ∀ p ∈ m.powers.map Power.inverse, p.AdmittedBy ρ bound)
    (mapped : es.mapM (Entry.quotient m) = .ok fs) :
    weightedSum (Reading.assigned ρ).weight fs =
      (m.coefficient * (Reading.assigned ρ).value m.powers)⁻¹ •
        weightedSum (Reading.assigned ρ).weight es := by
  induction Result.mapM_eq_ok.mp mapped with
  | nil => simp
  | @cons e f es fs made pairs ih =>
    have others := ih (fun g inside => dyadic g (List.mem_cons_of_mem _ inside))
      (fun g inside => left g (List.mem_cons_of_mem _ inside)) (Result.mapM_eq_ok.mpr pairs)
    rw [weightedSum_cons, weightedSum_cons, smul_add, others,
      Entry.assigned_quotient (dyadic e (by simp)) (left e (by simp)) right made]

/-- A quotient by a scalar with a unit coefficient denotes the quotient. -/
theorem Multivector.Denotes.divided (left : a.Denotes F ρ bound x) (right : b.Denotes F ρ bound y)
    (units : b.HasUnits) (nonzero : y 0 ≠ 0) (made : a.divide b = .ok c) :
    c.Denotes F ρ bound ((y 0)⁻¹ • x) := by
  obtain ⟨plainLeft, plainRight, m, quotients, found, short, mapped, collated⟩ := divide_eq_ok made
  obtain ⟨terms, divisor⟩ := right.divisor plainRight found
  have entry : (⟨0, m⟩ : Entry) ∈ b.entries := by simp [entries, terms, Term.entries]
  -- The reciprocal of a unit is exact.
  have unit : m.coefficient⁻¹ = 1 ∨ m.coefficient⁻¹ = -1 := by
    rcases units _ entry with one | minus
    · exact .inl (by simpa using one)
    · exact .inr (by rw [show m.coefficient = -1 from minus]; norm_num)
  have whole : Dyadic 0 m.coefficient⁻¹ := by
    rcases unit with one | minus
    · exact one ▸ Dyadic.one 0
    · exact minus ▸ (Dyadic.one 0).neg
  rw [divisor] at nonzero
  -- The number divided by is not zero, and so none of its powers is.
  have admitted : ∀ p ∈ m.powers.map Power.inverse, p.AdmittedBy ρ bound := by
    intro p inside
    obtain ⟨p, given, rfl⟩ := List.mem_map.mp inside
    refine (right.admitted _ entry p given).inverse fun zero => ?_
    refine right_ne_zero_of_mul nonzero ?_
    exact List.prod_eq_zero (List.mem_map.mpr ⟨p, given, zero⟩)
  have increasing : Increasing (m.powers.map Power.inverse) :=
    increasing_of_short (by simpa using short)
  have dyadic : ∀ e ∈ a.entries, Dyadic 0 (e.monomial.coefficient * m.coefficient⁻¹) :=
    fun e inside => (left.inSpace.dyadic e inside).mul whole
  -- Every quotient stands for an entry of the dividend, so its conditions are read off there.
  have source := Entry.quotient_source (by decide) dyadic mapped
  refine of_collate collated (fun f inside => ?_) (fun f inside => ?_) (fun f inside => ?_)
    (fun f inside => ?_) ?_
  · obtain ⟨e, given, element, -⟩ := source f inside
    exact element ▸ left.inSpace.element_lt given
  · obtain ⟨e, given, -, coefficient, -⟩ := source f inside
    exact coefficient ▸ dyadic e given
  · obtain ⟨e, given, -, -, product⟩ := source f inside
    exact increasing_mulPowers _ _ (left.inSpace.canonical.entry given).increasing increasing product
  · obtain ⟨e, given, -, -, product⟩ := source f inside
    exact admitted_mulPowers (left.admitted e given) admitted product
  · -- Every entry is multiplied by the reciprocal of the number.
    rw [← left.read plainLeft, Reading.read, divisor,
      weightedSum_assigned_quotient dyadic left.admitted admitted mapped, Finsupp.coe_smul]

end Divide

end Clifford
