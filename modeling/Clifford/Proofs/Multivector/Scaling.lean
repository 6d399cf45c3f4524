import Clifford.Proofs.Multivector.Domain
import Clifford.Proofs.Multivector.Negation
import Clifford.Proofs.Rational.Closeness

/-! Scaling: multiples and projections multiply every coefficient through the gate, and nothing removes
the ones that it drops. Their results are in canonical form exactly where it drops none. -/

namespace Clifford

open Result

instance : DecidablePred GateDrops := fun x => inferInstanceAs (Decidable (x ≠ 0 ∧ gate x = .ok 0))

namespace Multivector

variable {a b c : Multivector} {q : Rat} {element : Nat}

/-- The gate drops no coefficient that a multiple has to multiply. Multiples by one and by zero are taken
without it, and deferred functions are multiplied as a whole. -/
def Keeps (a : Multivector) (q : Rat) : Prop :=
  q ≠ 0 → q ≠ 1 → a.isPlain = true → ∀ e ∈ a.entries, ¬ GateDrops (e.monomial.coefficient * q)

/-- The gate drops no coefficient on a blade, which a projection multiplies by one. -/
def KeepsPart (a : Multivector) (element : Nat) : Prop :=
  ∀ e ∈ a.entries, e.element = element → ¬ GateDrops e.monomial.coefficient

instance (a : Multivector) (q : Rat) : Decidable (a.Keeps q) :=
  inferInstanceAs (Decidable (q ≠ 0 → q ≠ 1 → a.isPlain = true →
    ∀ e ∈ a.entries, ¬ GateDrops (e.monomial.coefficient * q)))

/-- A multiple by one is not taken through the gate. -/
theorem keeps_one : a.Keeps 1 := fun _ one => absurd rfl one

/-- Every coefficient is stored as zero. -/
def Vanishes (a : Multivector) : Prop := ∀ e ∈ a.entries, e.monomial.coefficient = 0

/-- No coefficient is stored as zero. -/
def Nonvanishing (a : Multivector) : Prop := ∀ e ∈ a.entries, e.monomial.coefficient ≠ 0

/-- Canonical coefficients are not zero. -/
theorem Canonical.nonvanishing (canonical : a.Canonical) : a.Nonvanishing :=
  fun _ inside => (canonical.entry inside).nonzero

/-- The canonical form is a matter of the shape, but for coefficients that are zero. -/
theorem Canonical.of_shape (canonical : a.Canonical) (same : b.shape = a.shape)
    (nonvanishing : b.Nonvanishing) : b.Canonical := by
  refine ⟨fun t member => ?_, ?_⟩
  · -- A term of the same shape has as many monomials, with the same powers.
    have row : termShape t ∈ a.shape := same ▸ List.mem_map_of_mem member
    obtain ⟨s, given, alike⟩ := List.mem_map.mp row
    have term := canonical.terms s given
    have powers : s.monomials.map (·.powers) = t.monomials.map (·.powers) := (Prod.mk.inj alike).2
    refine ⟨fun none => term.nonempty ?_, fun m monomial => ?_, ?_⟩
    · rw [none] at powers
      exact List.map_eq_nil_iff.mp powers
    · have old : m.powers ∈ s.monomials.map (·.powers) := powers ▸ List.mem_map_of_mem monomial
      obtain ⟨n, given, row⟩ := List.mem_map.mp old
      have before := term.monomials n given
      exact ⟨nonvanishing ⟨t.element, m⟩ (mem_entries member (List.mem_map_of_mem monomial)),
        row ▸ before.increasing, row ▸ before.keyed⟩
    · -- The order of monomials looks at powers alone, so it can be read off them.
      let Precedes (ps qs : List Power) : Prop := Monomial.Before ⟨0, ps⟩ ⟨0, qs⟩
      have rows : (s.monomials.map (·.powers)).Pairwise Precedes :=
        List.pairwise_map.mpr (term.ordered.imp fun before => before.congr rfl rfl)
      rw [powers] at rows
      exact (List.pairwise_map.mp rows).imp fun before => before.congr rfl rfl
  · rw [elements_eq_shape, same, ← elements_eq_shape]
    exact canonical.ordered

/-- What holds of all entries holds of the monomials of all terms. -/
theorem forall_entries {P : Entry → Prop} :
    (∀ e ∈ a.entries, P e) ↔ ∀ t ∈ a.terms, ∀ m ∈ t.monomials, P ⟨t.element, m⟩ := by
  -- Entries are listed term by term.
  simp only [entries, Term.entries, List.forall_mem_flatMap, List.forall_mem_map]

/-- Multiples of monomials are zero where the gate makes them so. -/
theorem nonzero_scaleMonomials {ms ns : List Monomial} (made : scaleMonomials q ms = .ok ns) :
    (∀ n ∈ ns, n.coefficient ≠ 0) ↔ ∀ m ∈ ms, gate (m.coefficient * q) ≠ .ok 0 := by
  -- A result has the coefficient that the gate gives, whatever its powers are.
  rw [Result.forall_mapM made]
  refine forall₂_congr fun m _ => ⟨fun each gated => ?_, fun nonzero n scaled => ?_⟩
  · exact each ⟨0, m.powers⟩ (by rw [gatedMul, gated]; rfl) rfl
  · obtain ⟨p, gated, done⟩ := Result.bind_eq_ok.mp scaled
    cases done
    rintro rfl
    exact nonzero gated

/-- Multiples of terms have a zero where the gate makes one. -/
theorem nonzero_scaleTerms {ss ts : List Term} (made : ss.mapM (Term.scaled q) = .ok ts) :
    (∀ t ∈ ts, ∀ m ∈ t.monomials, m.coefficient ≠ 0) ↔
      ∀ s ∈ ss, ∀ m ∈ s.monomials, gate (m.coefficient * q) ≠ .ok 0 := by
  rw [Result.forall_mapM made]
  refine forall₂_congr fun s inside => ?_
  -- The traversal has come past every term, so each of them has a multiple.
  obtain ⟨t, -, own⟩ := Result.exists_of_mapM_mem made inside
  obtain ⟨ns, scaled, done⟩ := Result.bind_eq_ok.mp own
  cases done
  -- The traversal gave this multiple and no other one.
  rw [← nonzero_scaleMonomials scaled, own]
  simp

/-- The terms of a multivector have multiples where its coefficients stay in the range of doubles. -/
theorem exists_scaleTerms (range : ∀ e ∈ a.entries, |e.monomial.coefficient * q| ≤ 2 ^ 1000) :
    ∃ ts, a.terms.mapM (Term.scaled q) = .ok ts := by
  -- Each product passes the gate, so each monomial and then each term has its multiple.
  rw [forall_entries] at range
  refine Result.exists_mapM_ok fun t member => ?_
  obtain ⟨ms, scaled⟩ : ∃ ms, scaleMonomials q t.monomials = .ok ms := by
    refine Result.exists_mapM_ok fun m monomial => ?_
    obtain ⟨p, gated⟩ := exists_gate (range t member m monomial)
    exact ⟨⟨p, m.powers⟩, by rw [gatedMul, gated]; rfl⟩
  exact ⟨⟨t.element, ms⟩, by rw [Term.scaled, scaled]; rfl⟩

/-- Multiples of a plain multivector exist where its coefficients stay in the range of doubles. -/
theorem exists_scale (plain : a.isPlain = true)
    (range : ∀ e ∈ a.entries, |e.monomial.coefficient * q| ≤ 2 ^ 1000) : ∃ b, a.scale q = .ok b := by
  obtain ⟨ts, mapped⟩ := exists_scaleTerms range
  -- Multiples by one and by zero are found without any product.
  by_cases one : q = 1
  · exact ⟨a, by rw [scale, if_pos one]⟩
  by_cases none : q = 0
  · exact ⟨zero, by rw [scale, if_neg one, if_pos none]⟩
  · exact ⟨{ terms := ts }, by rw [scale_eq plain none one, mapped]; rfl⟩

/-- A multiple is in canonical form exactly where its operand is and the gate drops none of the
coefficients, or where it is a multiple by zero. -/
theorem canonical_scale (made : a.scale q = .ok b) : b.Canonical ↔ q = 0 ∨ a.Canonical ∧ a.Keeps q := by
  by_cases zero : q = 0
  · -- A multiple by zero has no terms at all.
    subst zero
    rw [scale, if_neg zero_ne_one, if_pos rfl] at made
    cases made
    exact iff_of_true (canonical_basis 0 0) (.inl rfl)
  rw [or_iff_right zero]
  by_cases one : q = 1
  · -- A multiple by one is the operand itself.
    rw [scale, if_pos one] at made
    cases made
    exact (and_iff_left fun _ other => absurd one other).symm
  cases plain : a.isPlain with
  | false =>
    rw [scale, if_neg one, if_neg zero, plain, if_neg Bool.false_ne_true] at made
    obtain ⟨p, -, done⟩ := Result.bind_eq_ok.mp made
    cases done
    -- Only the multiplier of the function has changed.
    have kept : a.Keeps q := fun _ _ known => by simp [plain] at known
    exact ⟨fun canonical => ⟨⟨canonical.terms, canonical.ordered⟩, kept⟩,
      fun both => ⟨both.1.terms, both.1.ordered⟩⟩
  | true =>
    rw [scale_eq plain zero one] at made
    obtain ⟨ts, mapped, done⟩ := Result.bind_eq_ok.mp made
    cases done
    have same : shape { terms := ts } = a.shape := shape_scaleTerms mapped
    -- The multiple has the shape of its operand, so only its coefficients are to be looked at.
    have nonzero : Nonvanishing { terms := ts } ↔
        ∀ e ∈ a.entries, gate (e.monomial.coefficient * q) ≠ .ok 0 := by
      rw [Nonvanishing, forall_entries, forall_entries]
      exact nonzero_scaleTerms mapped
    constructor
    · intro canonical
      have gated := nonzero.mp canonical.nonvanishing
      -- A zero in the operand would have stayed there.
      have nonvanishing : a.Nonvanishing := fun e inside none =>
        gated e inside (by rw [none, zero_mul, gate_zero])
      exact ⟨canonical.of_shape same.symm nonvanishing,
        fun _ _ _ e inside dropped => gated e inside dropped.2⟩
    · rintro ⟨canonical, kept⟩
      refine canonical.of_shape same (nonzero.mpr fun e inside gated => ?_)
      -- The product is not zero, so that the gate would have dropped it.
      exact kept zero one plain e inside ⟨mul_ne_zero (canonical.nonvanishing e inside) zero, gated⟩

/-- A projection of something canonical is so exactly where the gate drops no coefficient on the blade. -/
theorem canonical_extract (canonical : a.Canonical) (made : a.extract element = .ok b) :
    b.Canonical ↔ a.KeepsPart element := by
  rcases extract_eq_ok canonical.ordered made with
    ⟨t, member, rfl, ms, scaled, rfl⟩ | ⟨absent, rfl⟩
  · -- A single term of the operand is canonical, and the copy has its shape.
    have single : Canonical { a with terms := [t] } :=
      ⟨fun s inside => List.mem_singleton.mp inside ▸ canonical.terms t member,
        List.pairwise_singleton _ _⟩
    have same : shape { a with terms := [⟨t.element, ms⟩] } = shape { a with terms := [t] } := by
      simp [shape, termShape, powers_scaleMonomials scaled]
    have nonzero : Nonvanishing { a with terms := [⟨t.element, ms⟩] } ↔
        ∀ m ∈ t.monomials, gate m.coefficient ≠ .ok 0 := by
      have each := nonzero_scaleMonomials scaled
      simp only [mul_one] at each
      rw [Nonvanishing, forall_entries, ← each]
      exact List.forall_mem_singleton
    -- The blades are distinct, so that no other term has entries on this one.
    have part : a.KeepsPart t.element ↔ ∀ m ∈ t.monomials, ¬ GateDrops m.coefficient := by
      have distinct : (a.terms.map (·.element)).Nodup := canonical.ordered.imp ne_of_lt
      rw [KeepsPart, forall_entries]
      refine ⟨fun kept m monomial => kept t member m monomial rfl, fun kept s inside m monomial same => ?_⟩
      obtain rfl := List.inj_on_of_nodup_map distinct inside member same
      exact kept m monomial
    rw [part]
    constructor
    · exact fun canonical m monomial dropped =>
        nonzero.mp canonical.nonvanishing m monomial dropped.2
    · intro kept
      refine single.of_shape same (nonzero.mpr fun m monomial gated => kept m monomial ⟨?_, gated⟩)
      exact ((canonical.terms t member).monomials m monomial).nonzero
  · -- Without a term on the blade there is nothing to drop.
    refine iff_of_true ⟨by simp, by simp [elements]⟩ fun e inside blade => ?_
    obtain ⟨t, member, entry⟩ := List.mem_flatMap.mp inside
    obtain ⟨m, -, rfl⟩ := List.mem_map.mp entry
    exact absurd blade (absent t member)

/-- Canonical multivectors whose coefficients vanish have no terms. -/
theorem Canonical.isZero (canonical : a.Canonical) (vanishes : a.Vanishes) : a.isZero = true := by
  rw [Multivector.isZero, List.isEmpty_iff, List.eq_nil_iff_forall_not_mem]
  intro t member
  -- A term would hold a monomial, with a coefficient other than zero.
  obtain ⟨m, monomial⟩ := List.exists_mem_of_ne_nil _ (canonical.terms t member).nonempty
  have inside : (⟨t.element, m⟩ : Entry) ∈ a.entries :=
    mem_entries member (List.mem_map_of_mem monomial)
  exact canonical.nonvanishing _ inside (vanishes _ inside)

/-- A plain multivector is not divided by zero. -/
theorem divide_zero (left : a.isPlain = true) (right : b.isPlain = true) (zero : b.isZero = true) :
    a.divide b = .error .divisionByZero := by
  -- The divisor is asked for its terms before any reciprocal is taken.
  rw [divide, requirePlain, requirePlain, if_pos left, if_pos right, divisorMonomial,
    List.isEmpty_iff.mp zero]
  rfl

/-- A deferred function is refused as such, and not for a reciprocal. -/
theorem requirePlain_reciprocal (a : Multivector) :
    FailsOnly (· ≠ .zeroReciprocal) a.requirePlain := by
  rw [requirePlain]
  split
  · exact .ok _
  · exact .error (by simp)

/-- A division takes the reciprocal of zero exactly where the divisor is a single scalar monomial, short
enough, with a coefficient that is stored as zero. -/
theorem divide_eq_zeroReciprocal : a.divide b = .error .zeroReciprocal ↔
    a.isPlain = true ∧ b.isPlain = true ∧
      ∃ m, b.terms = [⟨0, [m]⟩] ∧ m.powers.length ≤ 1 ∧ m.coefficient = 0 := by
  constructor
  · intro failed
    -- The operations of a division in order, of which only the reciprocal can be the one that fails.
    rcases Result.bind_eq_error.mp failed with early | ⟨u, left, rest⟩
    · exact absurd rfl (a.requirePlain_reciprocal _ early)
    rcases Result.bind_eq_error.mp rest with early | ⟨v, right, rest⟩
    · exact absurd rfl (b.requirePlain_reciprocal _ early)
    rcases Result.bind_eq_error.mp rest with early | ⟨m, found, rest⟩
    · -- A divisor that is no monomial is refused for its shape.
      rw [divisorMonomial] at early
      split at early <;> cases early
    split at rest
    · cases rest
    rename_i short
    refine ⟨isPlain_of_require left, isPlain_of_require right, m, divisorMonomial_eq_ok.mp found,
      not_lt.mp short, ?_⟩
    rcases Result.bind_eq_error.mp rest with early | ⟨q, -, rest⟩
    · -- The reciprocal exists unless the coefficient is zero.
      by_contra nonzero
      rw [Clifford.reciprocal, if_neg nonzero] at early
      cases early
    · -- Behind it, quotients and their collation fail mechanically.
      cases FailsOnly.bind (.mapM fun e _ => e.quotient_fails q _) (fun _ _ => collate_fails _ _ _) _ rest
  · -- Nothing fails before the reciprocal is taken.
    rintro ⟨left, right, m, terms, short, zero⟩
    rw [divide, requirePlain, requirePlain, if_pos left, if_pos right,
      divisorMonomial_eq_ok.mpr terms]
    simp only [Result.ok_bind, if_neg (not_lt.mpr short), Clifford.reciprocal, if_pos zero,
      Result.error_bind]

/-- A multivector that is seen to be zero where it is: it is in canonical form, it has no terms where its
coefficients vanish, it is refused as a divisor for that, and it never leads to the reciprocal of zero. -/
structure SeesZero (b : Multivector) : Prop where
  canonical : ∀ name, b.checkCanonical name = .ok ()
  zero : b.Vanishes → b.isZero = true
  divided : b.Vanishes → b.isPlain = true → ∀ a : Multivector, a.isPlain = true →
    a.divide b = .error .divisionByZero
  reciprocal : ∀ a : Multivector, a.divide b ≠ .error .zeroReciprocal

/-- Whatever is in canonical form is seen to be zero where it is. -/
theorem Canonical.seesZero (canonical : b.Canonical) : b.SeesZero where
  canonical name := (checkCanonical_eq_ok b name).mpr canonical
  zero := canonical.isZero
  divided vanishes right _ left := divide_zero left right (canonical.isZero vanishes)
  reciprocal a failed := by
    obtain ⟨-, -, m, terms, -, zero⟩ := divide_eq_zeroReciprocal.mp failed
    -- The only monomial of the divisor has a coefficient other than zero.
    refine canonical.nonvanishing ⟨0, m⟩ ?_ zero
    simp [entries, terms, Term.entries]

end Multivector

end Clifford
