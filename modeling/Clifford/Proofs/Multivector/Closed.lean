import Clifford.Proofs.Multivector.Built
import Clifford.Proofs.Multivector.Totality

/-! Operations keep the canonical form, with coefficients and degrees of any size. -/

namespace Clifford

/-- Entries whose ids increase. -/
def IncreasingEntries (entries : List Entry) : Prop :=
  ∀ e ∈ entries, Increasing e.monomial.powers

/-- Products and inverses of increasing powers increase. -/
theorem powerClosed_increasing : PowerClosed Increasing where
  nil := .nil
  mul left right product := increasing_mulPowers _ _ left right product
  inverse increasing := by simpa [Increasing, Function.comp_def, Power.inverse] using increasing

/-- The ids of canonical entries increase. -/
theorem Multivector.Canonical.increasing {a : Multivector} (canonical : a.Canonical) :
    IncreasingEntries a.entries := fun _ inside => (canonical.entry inside).increasing

namespace Metric

variable {m : Metric} {matrix : PairMatrix} {a b : Multivector}

/-- A change of basis makes canonical multivectors of canonical ones. -/
theorem canonical_changeBasis (canonical : a.Canonical) (made : m.changeBasis matrix a = .ok b) :
    b.Canonical := by
  -- What is collated has the powers of what is changed.
  obtain ⟨es, images, collated⟩ := powersIn_changeBasis canonical.increasing made
  exact collate_canonical images collated

/-- Canonical multivectors stay so over another basis, if there is one. -/
theorem canonical_change (canonical : a.Canonical)
    (made : (if m.isDiagonal then .ok a else m.changeBasis matrix a) = .ok b) : b.Canonical := by
  split at made
  · cases made
    exact canonical
  · exact canonical_changeBasis canonical made

/-- Canonical multivectors stay so over the orthogonal basis. -/
theorem canonical_diagonalize (canonical : a.Canonical) (made : m.diagonalize a = .ok b) :
    b.Canonical := canonical_change canonical made

/-- Canonical multivectors stay so over the working basis. -/
theorem canonical_undiagonalize (canonical : a.Canonical) (made : m.undiagonalize a = .ok b) :
    b.Canonical := canonical_change canonical made

end Metric

/-- The product of canonical multivectors is canonical. -/
theorem BladeProduct.canonical_product {kind : BladeProduct} {m : Metric} {a b c : Multivector}
    (left : a.Canonical) (right : b.Canonical) (made : kind.product m a b = .ok c) :
    c.Canonical := by
  obtain ⟨es, products, collated⟩ :=
    powersIn_product powerClosed_increasing left.increasing right.increasing made
  exact collate_canonical products collated

namespace Multivector

variable {a b c : Multivector}

/-- The dual of a canonical multivector is canonical. -/
theorem canonical_dual {n : Nat} (canonical : a.Canonical) (made : a.dual n = .ok b) :
    b.Canonical := by
  obtain ⟨es, complements, collated⟩ := powersIn_dual canonical.increasing made
  exact collate_canonical complements collated

/-- The regressive product of canonical multivectors is canonical. -/
theorem canonical_regressive {m : Metric} (left : a.Canonical) (right : b.Canonical)
    (made : a.regressive m b = .ok c) : c.Canonical := by
  -- A regressive product is made of two duals, a product and a dual.
  obtain ⟨x, first, rest⟩ := Result.bind_eq_ok.mp made
  obtain ⟨y, second, rest⟩ := Result.bind_eq_ok.mp rest
  obtain ⟨z, product, back⟩ := Result.bind_eq_ok.mp rest
  exact canonical_dual (BladeProduct.canonical_product (canonical_dual left first)
    (canonical_dual right second) product) back

/-- A canonical multivector plus a number is canonical. -/
theorem canonical_shift {q : Rat} (canonical : a.Canonical) (made : a.shift q = .ok b) :
    b.Canonical := by
  obtain ⟨u, -, rest⟩ := Result.bind_eq_ok.mp made
  split at rest
  · cases rest
    exact canonical
  · refine collate_canonical (fun e inside => ?_) rest
    -- A number has no powers.
    rcases List.mem_append.mp inside with old | new
    · exact canonical.increasing e old
    · obtain rfl := List.mem_singleton.mp new
      exact List.Pairwise.nil

/-- The quotient of canonical multivectors is canonical. -/
theorem canonical_divide (left : a.Canonical) (right : b.Canonical) (made : a.divide b = .ok c) :
    c.Canonical := by
  obtain ⟨es, quotients, collated⟩ :=
    powersIn_divide powerClosed_increasing left.increasing right.increasing made
  exact collate_canonical quotients collated

/-- The reversal of a canonical multivector is canonical. -/
theorem canonical_reverse (canonical : a.Canonical) (made : a.reverse = .ok b) : b.Canonical := by
  obtain ⟨-, rfl⟩ := reverse_eq_ok made
  -- A sign does not make a coefficient vanish.
  refine canonical_rescaled (fun e => ?_) canonical
  rcases Blade.reversionSign_cast e with one | minus <;> simp [*]

/-- A canonical multivector under a deferred function is canonical. -/
theorem canonical_withOp {op : Deferred} (canonical : a.Canonical) (made : a.withOp op = .ok b) :
    b.Canonical := by
  obtain ⟨-, ⟨-, rfl⟩ | ⟨-, rfl⟩⟩ := withOp_eq_ok.mp made
  · -- The function of zero is a number.
    split
    · exact canonical_basis 0 1
    · exact canonical_basis 0 0
  · exact ⟨canonical.terms, canonical.ordered⟩

/-- References to the terms of a canonical multivector are canonical. -/
theorem canonical_reference {id : Nat} (canonical : a.Canonical) (made : a.reference id = .ok b) :
    b.Canonical := by
  -- Fresh indeterminates stand on the same blades.
  rw [reference, ofElements_eq_fresh canonical.ordered] at made
  cases made
  exact canonical_fresh canonical.ordered

/-- The check accepts every result of an operation on multivectors that it accepts. It accepts every
result of a collation as well, which exists unless a sum overflows, as none does in range. -/
theorem checkCanonical_closed (m : Metric) (kind : BladeProduct) (n id : Nat) (q : Rat)
    (op : Deferred) (name : String) (left : a.checkCanonical name = .ok ())
    (right : b.checkCanonical name = .ok ()) :
    (∀ result ∈ [a.add b, kind.product m a b, a.reverse, a.dual n, a.divide b, a.shift q,
        a.regressive m b, m.diagonalize a, m.undiagonalize a, a.withOp op, a.reference id],
      ∀ c, result = .ok c → c.checkCanonical name = .ok ()) ∧
    ∀ entries opScale, IncreasingEntries entries →
      (∀ c, collate entries op opScale = .ok c → c.checkCanonical name = .ok ()) ∧
      (∀ cause, collate entries op opScale = .error cause → cause = .quotientOverflow) ∧
      (EntriesInRange entries → ∃ c, collate entries op opScale = .ok c) := by
  -- Accepted are canonical multivectors alone, so that it is enough to look at the form.
  rw [checkCanonical_eq_ok] at left right
  simp only [checkCanonical_eq_ok]
  refine ⟨?_, fun entries opScale increasing =>
    ⟨fun c => collate_canonical increasing, fun cause => collate_error, exists_collate⟩⟩
  simp only [List.forall_mem_cons, List.not_mem_nil, IsEmpty.forall_iff, implies_true, and_true]
  exact ⟨fun c => canonical_add left right, fun c => BladeProduct.canonical_product left right,
    fun c => canonical_reverse left, fun c => canonical_dual left, fun c => canonical_divide left right,
    fun c => canonical_shift left, fun c => canonical_regressive left right,
    fun c => Metric.canonical_diagonalize left, fun c => Metric.canonical_undiagonalize left,
    fun c => canonical_withOp left, fun c => canonical_reference left⟩

/-- A coefficient close to a simpler one on a blade whose sign a reversal changes, and its rounded sum
with another one. -/
theorem checkCanonical_closed_rounded :
    let first := Entry.of 3 (1 / 1031) [⟨0, 1 / 2⟩]
    let second := Entry.of 3 (1 / 1033) [⟨0, 1 / 2⟩]
    let a : Multivector := { terms := [⟨3, [first.monomial]⟩] }
    (∃ c, a.reverse = .ok c ∧ c.checkCanonical "result" = .ok ()) ∧
    ∃ c, collate [first, Entry.of 0 2 [], second] = .ok c ∧ c.checkCanonical "result" = .ok () := by
  intro first second a
  -- The reversal is computed by evaluation, and the sum exists since all of it is in range.
  obtain ⟨results, collations⟩ := checkCanonical_closed
    (.null ⟨1, 1, 0, by decide⟩ ⟨rfl, rfl⟩ (by decide)) .geometric 2 7 (1 / 3) .identity "result"
    (a := a) (b := a) (by decide +kernel) (by decide +kernel)
  have reversed : a.reverse = .ok { terms := [⟨3, [⟨-1 / 1031, [⟨0, 1 / 2⟩]⟩]⟩] } := by
    decide +kernel
  obtain ⟨canonical, -, returns⟩ := collations [first, Entry.of 0 2 [], second] 1
    (by simp [IncreasingEntries, first, second, Entry.of, Increasing])
  obtain ⟨c, collated⟩ := returns
    ⟨by unfold InRange; decide +kernel, by unfold InRange; decide +kernel⟩
  exact ⟨⟨_, reversed, results _ (by simp) _ reversed⟩, c, collated, canonical c collated⟩

/-- Twice a number in the range of doubles whose double is out of range. -/
theorem collate_overflow : ¬ ∀ entries, IncreasingEntries entries →
    ∃ c, collate entries = .ok c ∧ c.checkCanonical "sum" = .ok () := by
  intro returns
  obtain ⟨c, collated, -⟩ := returns
    [Entry.of 0 (2 ^ 1034 / 1031) [], Entry.of 0 (2 ^ 1034 / 1031) []]
    (by simp [IncreasingEntries, Entry.of, Increasing])
  have overflow : gatedAdd (2 ^ 1034 / 1031) (2 ^ 1034 / 1031) = .error .quotientOverflow := by
    decide +kernel
  generalize (2 ^ 1034 / 1031 : Rat) = q at collated overflow
  -- Both entries have the same place, so that they are in order as they are.
  have twice : collate [Entry.of 0 q [], Entry.of 0 q []] = .error .quotientOverflow := by
    rw [collate, @collateTerms_of_sorted _ [⟨0, ⟨0, []⟩, q⟩, ⟨0, ⟨0, []⟩, q⟩] rfl
      (by simp [Std.ReflCmp.compare_self]), KeyedEntry.merge, KeyedEntry.sumRuns,
      if_pos (by simp [KeyedEntry.alike]), overflow]
    rfl
  rw [twice] at collated
  cases collated

end Multivector

end Clifford
