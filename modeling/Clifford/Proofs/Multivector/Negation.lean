import Clifford.Proofs.Multivector.Closed

/-! Negation: a gated product by minus one, which does not undo itself on every coefficient. -/

namespace Clifford

/-- A coefficient and its gated negative have the gated sum zero. -/
def CancelsNegative (q : Rat) : Prop := ∃ r, gatedMul q (-1) = .ok r ∧ gatedAdd q r = .ok 0

/-- A coefficient is the gated negative of its gated negative. -/
def IsNegatedBack (q : Rat) : Prop := ∃ r, gatedMul q (-1) = .ok r ∧ gatedMul r (-1) = .ok q

/-- A coefficient with a denominator below the threshold of the gate is negated exactly. -/
theorem gatedMul_neg_one {q : Rat} (small : q.den < gateThreshold) : gatedMul q (-1) = .ok (-q) := by
  -- A negative has the denominator of the number.
  rw [gatedMul, mul_neg_one, gate, Rat.neg_den, if_pos small]

/-- An exact negative cancels. -/
theorem cancelsNegative_of_exact {q : Rat} (opposite : gatedMul q (-1) = .ok (-q)) :
    CancelsNegative q := ⟨-q, opposite, by rw [gatedAdd, add_neg_cancel, gate_zero]⟩

/-- Coefficients with small denominators are negated back. -/
theorem isNegatedBack_of_small {q : Rat} (small : q.den < gateThreshold) : IsNegatedBack q := by
  refine ⟨-q, gatedMul_neg_one small, ?_⟩
  rw [gatedMul_neg_one (by rwa [Rat.neg_den]), neg_neg]

/-- A term with the gated multiples of its coefficients. -/
def Term.scaled (q : Rat) (t : Term) : Result Term := do
  return { t with monomials := ← Multivector.scaleMonomials q t.monomials }

namespace Multivector

variable {a : Multivector}

/-- A plain multivector is multiplied term by term. -/
theorem scale_eq (plain : a.isPlain = true) {q : Rat} (zero : q ≠ 0) (one : q ≠ 1) :
    a.scale q = do return { terms := ← a.terms.mapM (Term.scaled q) } := by
  rw [scale, if_neg one, if_neg zero, if_pos plain]
  rfl

/-- A plain multivector is negated term by term. -/
theorem negate_eq (plain : a.isPlain = true) :
    a.negate = do return { terms := ← a.terms.mapM (Term.scaled (-1)) } :=
  scale_eq plain (by decide) (by decide)

/-- Monomials merge with their negatives into nothing exactly when every coefficient cancels. -/
theorem mergeMonomials_negative {ms : List Monomial} (canonical : ∀ m ∈ ms, m.Canonical) :
    (∃ ns, scaleMonomials (-1) ms = .ok ns ∧ mergeMonomials ms ns = .ok []) ↔
      ∀ m ∈ ms, CancelsNegative m.coefficient := by
  -- One monomial after the other is taken off both sides.
  induction ms with
  | nil => simp [scaleMonomials, mergeMonomials]
  | cons m rest ih =>
    obtain ⟨first, others⟩ := List.forall_mem_cons.mp canonical
    obtain ⟨key, keyed⟩ := first.keyed
    rw [List.forall_mem_cons, ← ih others]
    -- A monomial meets its own negative, which has the same key.
    have step (r : Rat) (ns : List Monomial) :
        mergeMonomials (m :: rest) (⟨r, m.powers⟩ :: ns) = .ok [] ↔
          gatedAdd m.coefficient r = .ok 0 ∧ mergeMonomials rest ns = .ok [] := by
      rw [mergeMonomials, keyed, Result.ok_bind, Result.ok_bind]
      simp only [Std.ReflCmp.compare_self, Result.bind_eq_ok, Result.pure_eq_ok, Except.ok.injEq]
      constructor
      · rintro ⟨q, sum, others, merged, done⟩
        split at done
        · rename_i zero
          exact ⟨zero ▸ sum, done ▸ merged⟩
        · cases done
      · rintro ⟨sum, merged⟩
        exact ⟨0, sum, [], merged, if_pos rfl⟩
    constructor
    · -- The negatives start with that of the first monomial.
      rintro ⟨ns, scaled, merged⟩
      rw [scaleMonomials, List.mapM_cons] at scaled
      obtain ⟨n, one, rest'⟩ := Result.bind_eq_ok.mp scaled
      obtain ⟨r, product, done⟩ := Result.bind_eq_ok.mp one
      cases done
      obtain ⟨ns', more, done⟩ := Result.bind_eq_ok.mp rest'
      cases done
      obtain ⟨sum, empty⟩ := (step r ns').mp merged
      exact ⟨⟨r, product, sum⟩, ns', more, empty⟩
    · rintro ⟨⟨r, product, sum⟩, ns, more, empty⟩
      refine ⟨⟨r, m.powers⟩ :: ns, ?_, (step r ns).mpr ⟨sum, empty⟩⟩
      rw [scaleMonomials] at more ⊢
      rw [List.mapM_cons, product, more]
      rfl

/-- Terms merge with their negatives into nothing exactly when every coefficient cancels. -/
theorem mergeTerms_negative {ts : List Term} (canonical : ∀ t ∈ ts, t.Canonical) :
    (∃ us, ts.mapM (Term.scaled (-1)) = .ok us ∧ mergeTerms ts us = .ok []) ↔
      ∀ t ∈ ts, ∀ m ∈ t.monomials, CancelsNegative m.coefficient := by
  -- The same one level up, with merges of monomials in place of sums.
  induction ts with
  | nil => simp [mergeTerms]
  | cons t rest ih =>
    obtain ⟨first, others⟩ := List.forall_mem_cons.mp canonical
    rw [List.forall_mem_cons, ← ih others, ← mergeMonomials_negative first.monomials]
    -- A term meets its own negative, on the same blade.
    have step (ns : List Monomial) (us : List Term) :
        mergeTerms (t :: rest) (⟨t.element, ns⟩ :: us) = .ok [] ↔
          mergeMonomials t.monomials ns = .ok [] ∧ mergeTerms rest us = .ok [] := by
      rw [mergeTerms, if_neg (lt_irrefl _), if_neg (lt_irrefl _)]
      simp only [Result.bind_eq_ok, Result.pure_eq_ok, Except.ok.injEq, List.isEmpty_iff]
      constructor
      · rintro ⟨rs, sum, others, merged, done⟩
        split at done
        · rename_i empty
          exact ⟨empty ▸ sum, done ▸ merged⟩
        · cases done
      · rintro ⟨sum, merged⟩
        exact ⟨[], sum, [], merged, if_pos rfl⟩
    constructor
    · rintro ⟨us, scaled, merged⟩
      rw [List.mapM_cons] at scaled
      obtain ⟨u, one, rest'⟩ := Result.bind_eq_ok.mp scaled
      obtain ⟨ns, products, done⟩ := Result.bind_eq_ok.mp one
      cases done
      obtain ⟨us', more, done⟩ := Result.bind_eq_ok.mp rest'
      cases done
      obtain ⟨sum, empty⟩ := (step ns us').mp merged
      exact ⟨⟨ns, products, sum⟩, us', more, empty⟩
    · rintro ⟨⟨ns, products, sum⟩, us, more, empty⟩
      refine ⟨⟨t.element, ns⟩ :: us, ?_, (step ns us).mpr ⟨sum, empty⟩⟩
      rw [List.mapM_cons, Term.scaled, products, more]
      rfl

/-- A plain multivector minus itself is zero exactly when every coefficient cancels. -/
theorem sub_self_eq_zero (plain : a.isPlain = true) (canonical : a.Canonical) :
    a.sub a = .ok zero ↔ ∀ t ∈ a.terms, ∀ m ∈ t.monomials, CancelsNegative m.coefficient := by
  rw [← mergeTerms_negative canonical.terms, sub, negate_eq plain]
  have required : a.requirePlain = .ok () := by rw [requirePlain, if_pos plain]
  -- A difference is the sum with the negative.
  constructor
  · intro made
    obtain ⟨b, negated, sum⟩ := Result.bind_eq_ok.mp made
    obtain ⟨us, scaled, done⟩ := Result.bind_eq_ok.mp negated
    cases done
    obtain ⟨vs, merged, done⟩ := add_eq_ok sum
    cases done
    exact ⟨us, scaled, merged⟩
  · rintro ⟨us, scaled, merged⟩
    rw [scaled, Result.ok_bind, Result.pure_eq_ok, Result.ok_bind, add, required, Result.ok_bind]
    rw [show requirePlain { terms := us } = .ok () from rfl, Result.ok_bind, merged]
    rfl

/-- A monomial is negated back exactly when its coefficient is. -/
theorem scaleMonomial_back {m : Monomial} :
    (∃ n, (do return { m with coefficient := ← gatedMul m.coefficient (-1) }) = Except.ok n ∧
      (do return { n with coefficient := ← gatedMul n.coefficient (-1) }) = Except.ok m) ↔
        IsNegatedBack m.coefficient := by
  -- The powers are kept either way.
  constructor
  · rintro ⟨n, there, back⟩
    obtain ⟨r, product, done⟩ := Result.bind_eq_ok.mp there
    cases done
    obtain ⟨q, product', done⟩ := Result.bind_eq_ok.mp back
    exact ⟨r, product, by rw [product', ← congrArg Monomial.coefficient (Except.ok.inj done)]⟩
  · rintro ⟨r, product, product'⟩
    exact ⟨⟨r, m.powers⟩, by rw [product]; rfl, by rw [product']; rfl⟩

/-- A term is negated back exactly when every coefficient is. -/
theorem scaled_back {t : Term} :
    (∃ u, t.scaled (-1) = .ok u ∧ u.scaled (-1) = .ok t) ↔
      ∀ m ∈ t.monomials, IsNegatedBack m.coefficient := by
  rw [← forall₂_congr fun m _ => scaleMonomial_back, ← Result.mapM_undone]
  constructor
  · rintro ⟨u, there, back⟩
    obtain ⟨ns, scaled, done⟩ := Result.bind_eq_ok.mp there
    cases done
    obtain ⟨ms, scaled', done⟩ := Result.bind_eq_ok.mp back
    exact ⟨ns, scaled, scaled'.trans (by rw [← congrArg Term.monomials (Except.ok.inj done)])⟩
  · rintro ⟨ns, scaled, scaled'⟩
    exact ⟨⟨t.element, ns⟩, by rw [Term.scaled, scaleMonomials, scaled]; rfl,
      by rw [Term.scaled, scaleMonomials, scaled']; rfl⟩

/-- A plain multivector is negated back exactly when every coefficient is. -/
theorem negate_negate_eq (plain : a.Plain) :
    (do (← a.negate).negate) = .ok a ↔
      ∀ t ∈ a.terms, ∀ m ∈ t.monomials, IsNegatedBack m.coefficient := by
  rw [← forall₂_congr fun t _ => scaled_back, ← Result.mapM_undone,
    negate_eq (by rw [isPlain, plain.1]; rfl)]
  -- What is negated twice is plain, and so it is given back with its function and its multiplier.
  constructor
  · intro made
    obtain ⟨b, negated, back⟩ := Result.bind_eq_ok.mp made
    obtain ⟨us, scaled, done⟩ := Result.bind_eq_ok.mp negated
    cases done
    rw [negate_eq rfl] at back
    obtain ⟨ts, scaled', done⟩ := Result.bind_eq_ok.mp back
    exact ⟨us, scaled, scaled'.trans (by rw [← congrArg terms (Except.ok.inj done)])⟩
  · rintro ⟨us, scaled, scaled'⟩
    obtain ⟨identity, one⟩ := plain
    rw [scaled, Result.ok_bind, Result.pure_eq_ok, Result.ok_bind, negate_eq rfl, scaled',
      Result.ok_bind, ← identity, ← one]
    rfl

/-- A difference of equals vanishes, and a second negation undoes the first, exactly where the gate lets
every coefficient cancel or return, as it lets all with denominators below its threshold. -/
theorem negation_exact (plain : a.Plain) (canonical : a.Canonical) :
    (a.sub a = .ok zero ↔ ∀ e ∈ a.entries, CancelsNegative e.monomial.coefficient) ∧
    ((do (← a.negate).negate) = .ok a ↔ ∀ e ∈ a.entries, IsNegatedBack e.monomial.coefficient) ∧
    ((∀ e ∈ a.entries, e.monomial.coefficient.den < gateThreshold) →
      a.sub a = .ok zero ∧ (do (← a.negate).negate) = .ok a) := by
  -- Entries are the monomials of all terms.
  have each (P : Rat → Prop) : (∀ e ∈ a.entries, P e.monomial.coefficient) ↔
      ∀ t ∈ a.terms, ∀ m ∈ t.monomials, P m.coefficient := by
    simp only [entries, Term.entries, List.forall_mem_flatMap, List.forall_mem_map]
  have difference := sub_self_eq_zero (by rw [isPlain, plain.1]; rfl) canonical
  have back := negate_negate_eq plain
  rw [← each] at difference back
  exact ⟨difference, back, fun small => ⟨difference.mpr fun e inside =>
      cancelsNegative_of_exact (gatedMul_neg_one (small e inside)),
    back.mpr fun e inside => isNegatedBack_of_small (small e inside)⟩⟩

/-- A coefficient above the threshold of the gate that is negated exactly. -/
theorem negation_exact_power :
    let a : Multivector := { terms := [⟨1, [⟨1 / 2187, [⟨0, 1 / 2⟩]⟩]⟩] }
    a.sub a = .ok zero ∧ (do (← a.negate).negate) = .ok a := by
  intro a
  obtain ⟨difference, back, -⟩ := negation_exact (a := a) ⟨rfl, rfl⟩ (by decide +kernel)
  refine ⟨difference.mpr ?_, back.mpr ?_⟩
  · simpa [a, entries, Term.entries] using ⟨-1 / 2187, by decide +kernel, by decide +kernel⟩
  · simpa [a, entries, Term.entries] using ⟨-1 / 2187, by decide +kernel, by decide +kernel⟩

/-- A coefficient that the gate keeps, and whose negative it rounds. -/
theorem sub_self_rounded : ¬ ∀ a : Multivector, a.Plain → a.Canonical →
    (∀ e ∈ a.entries, |e.monomial.coefficient| < 2 ^ 1000) → a.sub a = .ok zero := by
  intro vanishes
  have canonical : Canonical { terms := [⟨0, [⟨9794 / 1031, []⟩]⟩] } := by decide +kernel
  have small : |(9794 / 1031 : Rat)| < 2 ^ 1000 := by decide +kernel
  have cancels := (sub_self_eq_zero rfl canonical).mp
    (vanishes _ ⟨rfl, rfl⟩ canonical (by simpa [entries, Term.entries] using small))
  obtain ⟨r, negative, sum⟩ := cancels _ List.mem_cons_self _ List.mem_cons_self
  -- The negative is rounded to a fraction with a smaller denominator.
  obtain rfl : -9775 / 1029 = r := by
    have rounded : gatedMul (9794 / 1031) (-1) = .ok (-9775 / 1029) := by decide +kernel
    exact Except.ok.inj (rounded.symm.trans negative)
  have rest : gatedAdd (9794 / 1031) (-9775 / 1029) = .ok (1 / 1060899) := by decide +kernel
  exact absurd (Except.ok.inj (rest.symm.trans sum)) (by norm_num)

end Multivector

end Clifford
