import Clifford.Proofs.Multivector.Denotes
import Clifford.Proofs.Multivector.Dual
import Clifford.Plan.Operation

/-! The operators on symbolic multivectors denote the operators on dense vectors. -/

namespace Clifford

open Finsupp

/-- The sign of a reversal is one or minus one. -/
theorem Blade.reversionSign_cases (e : Nat) : reversionSign e = 1 ∨ reversionSign e = -1 :=
  swapSign_cases (grade e * (grade e - 1) / 2)

/-- The sign of a reversal is one or minus one as a factor. -/
theorem Blade.reversionSign_cast (e : Nat) :
    (reversionSign e : Rat) = 1 ∨ (reversionSign e : Rat) = -1 := by
  rcases reversionSign_cases e with one | minus <;> simp [*]

namespace Multivector

/-- Every coefficient is one or minus one. -/
def HasUnits (a : Multivector) : Prop :=
  ∀ e ∈ a.entries, e.monomial.coefficient = 1 ∨ e.monomial.coefficient = -1

/-- A result that asks for a plain multivector got one. -/
theorem isPlain_of_require {a : Multivector} {u : Unit} (required : a.requirePlain = .ok u) :
    a.isPlain = true := by
  -- The check fails for everything else.
  rw [requirePlain] at required
  split at required
  · assumption
  · cases required

/-- Coefficients of small denominators are multiplied by whole numbers exactly. -/
theorem scaleMonomials_eq_ok {k : Nat} (small : k ≤ exactBits) {q : Rat} (whole : Dyadic 0 q)
    {ms : List Monomial} (dyadic : ∀ m ∈ ms, Dyadic k m.coefficient) :
    scaleMonomials q ms = .ok (ms.map fun m => ⟨m.coefficient * q, m.powers⟩) := by
  -- The gate keeps products of small denominators.
  refine Result.mapM_ok fun m inside => ?_
  rw [gatedMul_eq_ok (dyadic m inside) whole small]
  rfl

/-- A whole multiple of a plain multivector has all coefficients multiplied. -/
theorem scale_eq_rescaled {dim k : Nat} (small : k ≤ exactBits) {a : Multivector}
    (inSpace : a.Over dim k) (plain : a.isPlain = true) {q : Rat} (whole : Dyadic 0 q) (zero : q ≠ 0)
    (one : q ≠ 1) : a.scale q = .ok (a.rescaled fun _ => q) := by
  -- Every term is multiplied on its own, and none of the products is gated.
  have terms : (a.terms.mapM fun t => do
      return { t with monomials := ← scaleMonomials q t.monomials }) =
        .ok (a.rescaled fun _ => q).terms := by
    refine Result.mapM_ok fun t member => ?_
    rw [scaleMonomials_eq_ok small whole fun m inside =>
      inSpace.dyadic_term member ⟨t.element, m⟩ (List.mem_map_of_mem inside)]
    rfl
  rw [scale, if_neg one, if_neg zero, if_pos plain, terms]
  rfl

/-- The reversal of a plain multivector multiplies every term by the sign of its blade. -/
theorem reverse_eq_ok {a b : Multivector} (made : a.reverse = .ok b) :
    a.isPlain = true ∧ b = a.rescaled fun e => (Blade.reversionSign e : Rat) := by
  obtain ⟨u, required, done⟩ := Result.bind_eq_ok.mp made
  cases done
  refine ⟨isPlain_of_require required, ?_⟩
  -- A negative sign changes all signs, and a positive one changes nothing.
  rw [Multivector.rescaled]
  congr 1
  refine List.map_congr_left fun t _ => ?_
  rcases Blade.reversionSign_cases t.element with one | minus
  · simp [one]
  · simp [minus, oppositeMonomials]

/-- Another multiplier of a deferred function scales its coefficients. -/
theorem coefficientAt_opScale {dim : Nat} {F : Functions dim} {ρ : Nat → Rat} {a : Multivector}
    (deferred : a.isPlain = false) (q : Rat) (blade : Nat) :
    coefficientAt F ρ { a with opScale := a.opScale * q } blade =
      (a.coefficientAt F ρ blade).map (q * ·) := by
  -- The blades, the function and its argument are the same.
  show (if blade ∈ a.elements then if a.isPlain then _ else
      (F.number a.op ((Reading.assigned ρ).read a blade)).map _ else _) = _
  rw [coefficientAt, deferred]
  split
  · rw [if_neg Bool.false_ne_true, if_neg Bool.false_ne_true, Option.map_map]
    congr 1
    funext number
    exact (mul_right_comm _ _ _).trans (mul_comm _ _)
  · simp

/-- Units are kept where coefficients are multiplied by units. -/
theorem HasUnits.rescaled {a : Multivector} {factor : Nat → Rat} (units : a.HasUnits)
    (unit : ∀ e, factor e = 1 ∨ factor e = -1) : (a.rescaled factor).HasUnits := by
  -- The four products of units are units.
  intro e inside
  rw [entries_rescaled] at inside
  obtain ⟨f, given, rfl⟩ := List.mem_map.mp inside
  rcases units f given with one | minus <;> rcases unit f.element with one' | minus' <;> simp [*]

/-- Multiples of basis blades are canonical. -/
theorem canonical_basis (element : Nat) (q : Rat) : (basis element q).Canonical := by
  -- A multiple of zero has no term, and any other one has a single term.
  by_cases none : q = 0
  · simpa [basis, none] using ⟨by simp, List.Pairwise.nil⟩
  · refine ⟨fun t member => ?_, ?_⟩
    · obtain rfl : t = ⟨element, [⟨q, []⟩]⟩ := by simpa [basis, none] using member
      exact ⟨by simp, by simpa using ⟨none, by simp [Increasing], ⟨⟨0, []⟩, rfl⟩⟩,
        List.pairwise_singleton _ _⟩
    · simp [basis, none, elements]

namespace Denotes

variable {dim : Nat} {F : Functions dim} {ρ : Nat → Rat} {bound : Nat} {a b c : Multivector}
  {x y : Dense} {q : Rat}

/-- A whole multiple denotes the multiple. -/
theorem scaled (denotes : a.Denotes F ρ bound x) (whole : Dyadic 0 q) (made : a.scale q = .ok b) :
    b.Denotes F ρ bound (q • x) := by
  -- Multiples by one and zero are taken without looking at the terms.
  by_cases one : q = 1
  · rw [Multivector.scale, if_pos one] at made
    cases made
    rwa [one, one_smul]
  by_cases none : q = 0
  · rw [Multivector.scale, if_neg one, if_pos none] at made
    cases made
    rw [none, zero_smul]
    exact zero
  cases plain : a.isPlain with
  | true =>
    rw [scale_eq_rescaled (by decide) denotes.inSpace plain whole none one] at made
    cases made
    exact denotes.rescaled plain (fun _ => whole) fun _ => none
  | false =>
    -- The multiplier of a deferred function takes the factor.
    rw [Multivector.scale, if_neg one, if_neg none, plain, if_neg Bool.false_ne_true,
      gatedMul_eq_ok denotes.scale whole (by decide)] at made
    cases made
    have inSpace := denotes.inSpace
    exact ⟨⟨⟨inSpace.canonical.terms, inSpace.canonical.ordered⟩, inSpace.bounded, inSpace.dyadic⟩,
      denotes.scale.mul whole, denotes.admitted, fun blade => by
        rw [coefficientAt_opScale plain, denotes.coefficient blade]
        rfl⟩

/-- A multiple by one or minus one keeps unit coefficients. -/
theorem hasUnits_scaled (denotes : a.Denotes F ρ bound x) (units : a.HasUnits)
    (unit : q = 1 ∨ q = -1) (made : a.scale q = .ok b) : b.HasUnits := by
  -- A multiple by one is the multivector itself.
  rcases unit with rfl | rfl
  · rw [Multivector.scale, if_pos rfl] at made
    cases made
    exact units
  · cases plain : a.isPlain with
    | true =>
      rw [scale_eq_rescaled (by decide) denotes.inSpace plain (Dyadic.one 0).neg (by decide) (by decide)]
        at made
      cases made
      exact units.rescaled fun _ => .inr rfl
    | false =>
      rw [Multivector.scale, if_neg (by decide), if_neg (by decide), plain,
        if_neg Bool.false_ne_true] at made
      obtain ⟨opScale, -, done⟩ := Result.bind_eq_ok.mp made
      cases done
      exact units

/-- A reversal denotes the reversal. -/
theorem reversed (denotes : a.Denotes F ρ bound x) (made : a.reverse = .ok b) :
    b.Denotes F ρ bound x.reverse := by
  -- The signs are whole numbers other than zero, so that all terms stay.
  obtain ⟨plain, rfl⟩ := reverse_eq_ok made
  refine denotes.rescaled plain (fun e => Dyadic.intCast _) fun e => ?_
  rcases Blade.reversionSign_cast e with one | minus <;> simp [*]

/-- A sum denotes the sum. -/
theorem added (left : a.Denotes F ρ bound x) (right : b.Denotes F ρ bound y)
    (made : a.add b = .ok c) : c.Denotes F ρ bound (x + y) := by
  -- Only plain multivectors have a sum, and its value is the sum of theirs.
  obtain ⟨u, plainLeft, rest⟩ := Result.bind_eq_ok.mp made
  obtain ⟨v, plainRight, -⟩ := Result.bind_eq_ok.mp rest
  have plainLeft := isPlain_of_require plainLeft
  have plainRight := isPlain_of_require plainRight
  obtain ⟨c', again, inSpace, plain, source, value⟩ := exists_add (by decide) left.inSpace
    right.inSpace (by simpa [isPlain] using plainLeft) (by simpa [isPlain] using plainRight)
  obtain rfl : c = c' := by simpa [made] using again
  refine of_read inSpace plain (fun e inside => ?_) ?_
  · obtain ⟨f, given, powers⟩ := source e inside
    rw [← powers]
    exact (List.mem_append.mp given).elim (left.admitted f) (right.admitted f)
  · rw [value, ← left.read plainLeft, ← right.read plainRight]
    rfl

end Denotes

section Product

variable {m : Metric} {F : Functions m.dim} {ρ : Nat → Rat} {bound : Nat} {a b c : Multivector}
  {x y : Dense} {kind : BladeProduct}

/-- A product over an orthogonal basis denotes the dense product. -/
theorem Denotes.multiplied (diagonal : m.isDiagonal = true) (left : a.Denotes F ρ bound x)
    (right : b.Denotes F ρ bound y) (made : kind.product m a b = .ok c) :
    c.Denotes F ρ bound (.product kind m x y) := by
  obtain ⟨u, plainLeft, rest⟩ := Result.bind_eq_ok.mp made
  obtain ⟨v, plainRight, -⟩ := Result.bind_eq_ok.mp rest
  have valueLeft := left.read (isPlain_of_require plainLeft)
  have valueRight := right.read (isPlain_of_require plainRight)
  have slack : m.slack = 0 := by rw [Metric.slack, if_pos diagonal]
  -- Powers multiply as their values do, since all of them are admitted.
  obtain ⟨inSpace, plain, represents⟩ := BladeProduct.product_product left.inSpace right.inSpace
    (by rw [slack]; decide) (fun e first f second =>
      Reading.multiplies_assigned (left.admitted e first) (right.admitted f second)) made
  rw [slack] at inSpace
  refine of_read inSpace plain (fun e inside => ?_) ?_
  · obtain ⟨f, first, g, second, product⟩ := represents.source e inside
    exact admitted_mulPowers (left.admitted f first) (right.admitted g second) product
  · rw [Reading.read, represents.value, ← valueLeft, ← valueRight]
    refine Dense.clifford_eq_product diagonal ρ (fun blade nonzero => ?_) fun blade nonzero => ?_
    · exact left.bounded (valueLeft ▸ nonzero)
    · exact right.bounded (valueRight ▸ nonzero)

end Product

section Collated

variable {dim : Nat} {F : Functions dim} {ρ : Nat → Rat} {bound : Nat} {a b c : Multivector}
  {x y : Dense} {q : Rat} {es : List Entry}

/-- Collated entries with whole coefficients and admitted powers denote their total. -/
theorem Denotes.of_collate (collated : collate es = .ok c) (bounded : ∀ e ∈ es, e.element < dim)
    (dyadic : DyadicEntries 0 es) (increasing : ∀ e ∈ es, Increasing e.monomial.powers)
    (admitted : AdmittedEntries ρ bound es)
    (value : weightedSum (Reading.assigned ρ).weight es = x) : c.Denotes F ρ bound x := by
  -- Collation keeps the total, and every power of its result is one of the powers given.
  obtain ⟨c', again, inSpace, plain, source, total⟩ := collate_over dim (by decide) bounded dyadic
    increasing (exists_key_of_collate collated) .identity 1
  obtain rfl : c = c' := by simpa [collated] using again
  refine of_read inSpace plain (fun e inside => ?_) ?_
  · obtain ⟨f, given, -, powers⟩ := source e inside
    exact powers ▸ admitted f given
  · rw [total, value]

/-- A multiple of a basis blade denotes its coefficient there. -/
theorem Denotes.basis {element : Nat} (inside : element < dim) (whole : Dyadic 0 q) :
    (Multivector.basis element q).Denotes F ρ bound (.onBlade element q) := by
  by_cases none : q = 0
  · -- A multiple of zero has no term.
    have empty : Multivector.basis element q = Multivector.zero := by simp [Multivector.basis, none,
      Multivector.zero]
    have vanishes : Dense.onBlade element q = 0 := by
      funext b
      simp [Dense.onBlade, none]
    rw [empty, vanishes]
    exact zero
  · have entries : (Multivector.basis element q).entries = [⟨element, ⟨q, []⟩⟩] := by
      simp [Multivector.basis, none, Multivector.entries, Term.entries]
    refine of_read (.of_entries (canonical_basis element q) ?_ ?_) ⟨rfl, rfl⟩ ?_ ?_
    · rw [entries]
      simpa using inside
    · rw [entries]
      simpa [DyadicEntries] using whole
    · rw [entries]
      simp [AdmittedEntries]
    · funext b
      rw [Reading.read, entries]
      simp [Reading.weight, Reading.assigned, Dense.onBlade, single_apply, eq_comm]

end Collated

end Multivector

/-- The dual of a value of a space has the coefficients of the dense dual. -/
theorem Dense.coe_dualValue {n : Nat} {x : Nat →₀ Rat} (inSpace : x ∈ spaceValues Rat (2 ^ n)) :
    (dualValue n x : Dense) = Dense.dual n (2 ^ n) x := by
  -- Both duals are additive, so that single blades suffice.
  refine spaceValues_induction (p := fun x => (dualValue n x : Dense) = Dense.dual n (2 ^ n) x) ?_
    (fun x y left right => ?_) (fun e inside q => ?_) inSpace
  · funext target
    simp [Dense.dual]
  · rw [map_add, Finsupp.coe_add, Finsupp.coe_add, left, right, Dense.dual_add]
  · rw [dualValue_single, Dense.coe_single, Dense.dual_onBlade n inside, ← Dense.coe_single,
      smul_single, smul_eq_mul]

/-- A dual denotes the dual. -/
theorem Multivector.Denotes.dualized {n : Nat} {F : Functions (2 ^ n)} {ρ : Nat → Rat} {bound : Nat}
    {a b : Multivector} {x : Dense} (denotes : a.Denotes F ρ bound x) (made : a.dual n = .ok b) :
    b.Denotes F ρ bound (x.dual n (2 ^ n)) := by
  obtain ⟨u, required, -⟩ := Result.bind_eq_ok.mp made
  have isPlain := isPlain_of_require required
  obtain ⟨c, again, inSpace, plain, source, value⟩ := exists_dual (by decide) denotes.inSpace
    (by simpa [Multivector.isPlain] using isPlain)
  obtain rfl : b = c := by simpa [made] using again
  refine of_read inSpace plain (fun e inside => ?_) ?_
  · obtain ⟨f, given, powers⟩ := source e inside
    exact powers ▸ denotes.admitted f given
  · rw [value, Dense.coe_dualValue (Reading.read_mem_spaceValues _ denotes.inSpace),
      denotes.read isPlain]

end Clifford
