import Clifford.Proofs.Multivector.Collate

/-! Uniqueness of the canonical form: multivectors in this form with equal totals under weights that
tell their blades and powers apart are the same. -/

namespace Clifford

open Std

namespace Entry

/-- No entry stands before itself. -/
theorem Before.irrefl (e : Entry) : ¬ e.Before e := by
  rintro (less | ⟨-, before⟩)
  · exact lt_irrefl _ less
  · exact Monomial.Before.irrefl _ before

/-- Of two entries at most one stands before the other. -/
theorem Before.asymm {e f : Entry} (left : e.Before f) : ¬ f.Before e := by
  rintro (less | ⟨same, before⟩)
  · rcases left with less' | ⟨same', -⟩ <;> omega
  · rcases left with less' | ⟨-, before'⟩
    · omega
    · exact Monomial.Before.irrefl _ (before'.trans before)

/-- An entry that stands before another one differs from it in its blade or its powers. -/
theorem Before.differs {e f : Entry} (before : e.Before f) :
    ¬ (e.element = f.element ∧ e.monomial.powers = f.monomial.powers) := by
  rintro ⟨element, powers⟩
  rcases before with less | ⟨-, k, l, left, right, less⟩
  · omega
  · rw [powers] at left
    obtain rfl : k = l := by simpa [left] using right
    simp [ReflCmp.compare_self] at less

end Entry

/-- Entries in order are determined by which of them there are. -/
theorem eq_of_ordered {xs ys : List Entry} (left : xs.Pairwise Entry.Before)
    (right : ys.Pairwise Entry.Before) (same : ∀ e, e ∈ xs ↔ e ∈ ys) : xs = ys := by
  have distinct {zs : List Entry} (ordered : zs.Pairwise Entry.Before) : zs.Nodup := by
    refine ordered.imp fun {e f} before => ?_
    rintro rfl
    exact Entry.Before.irrefl e before
  -- Without repetitions both are permutations of each other, and an order leaves one.
  exact List.Perm.eq_of_pairwise (fun e f _ _ before after => absurd after before.asymm) left right
    ((List.perm_ext_iff_of_nodup (distinct left) (distinct right)).mpr same)

/-- The entries of a term lie on its blade. -/
theorem Term.filter_entries (t : Term) :
    t.entries.filter (fun e => e.element = t.element) = t.entries := by
  rw [List.filter_eq_self]
  intro e inside
  obtain ⟨m, -, rfl⟩ := List.mem_map.mp inside
  simp

/-- The entries of later terms lie on higher blades than the first term. -/
theorem Term.filter_later_entries {t : Term} {rest : List Term}
    (ordered : ((t :: rest).map (·.element)).Pairwise (· < ·)) :
    (rest.flatMap Term.entries).filter (fun e => e.element = t.element) = [] := by
  rw [List.filter_eq_nil_iff]
  intro e inside
  obtain ⟨u, member, entry⟩ := List.mem_flatMap.mp inside
  obtain ⟨m, -, rfl⟩ := List.mem_map.mp entry
  have above : t.element < u.element :=
    (List.pairwise_cons.mp ordered).1 u.element (List.mem_map_of_mem member)
  simpa using above.ne'

/-- A term with monomials has a first entry. -/
theorem Term.exists_first_entry {t : Term} (nonempty : t.monomials ≠ []) :
    ∃ m es, t.entries = ⟨t.element, m⟩ :: es := by
  cases split : t.monomials with
  | nil => exact absurd split nonempty
  | cons m ms => exact ⟨m, _, by rw [Term.entries, split]; rfl⟩

/-- A term is determined by its blade and its entries. -/
theorem Term.eq_of_entries {t u : Term} (element : t.element = u.element)
    (entries : t.entries = u.entries) : t = u := by
  have monomials : t.monomials = u.monomials := by
    have := congrArg (List.map Entry.monomial) entries
    simpa [Term.entries, Function.comp_def] using this
  cases t
  cases u
  simp_all

/-- Terms on increasing blades with monomials are determined by their entries. -/
theorem terms_eq_of_entries (ts : List Term) : ∀ {us : List Term},
    (∀ t ∈ ts, t.monomials ≠ []) → (∀ u ∈ us, u.monomials ≠ []) →
    (ts.map (·.element)).Pairwise (· < ·) → (us.map (·.element)).Pairwise (· < ·) →
    ts.flatMap Term.entries = us.flatMap Term.entries → ts = us := by
  -- The first terms share their first entry, and so their blade and all entries on it.
  induction ts with
  | nil =>
    intro us _ filled _ _ same
    cases us with
    | nil => rfl
    | cons u us =>
      obtain ⟨m, ms, first⟩ := Term.exists_first_entry (filled u (by simp))
      simp [first] at same
  | cons t ts ih =>
    intro us filledLeft filledRight orderedLeft orderedRight same
    obtain ⟨m, ms, first⟩ := Term.exists_first_entry (filledLeft t (by simp))
    cases us with
    | nil => simp [first] at same
    | cons u us =>
      obtain ⟨n, ns, first'⟩ := Term.exists_first_entry (filledRight u (by simp))
      rw [List.flatMap_cons, List.flatMap_cons] at same
      have element : t.element = u.element := by
        rw [first, first'] at same
        exact congrArg Entry.element (List.cons.inj same).1
      -- Keeping the entries on this blade leaves those of the first terms.
      have entries : t.entries = u.entries := by
        have kept := congrArg (List.filter fun e => e.element = t.element) same
        rw [List.filter_append, List.filter_append, Term.filter_later_entries orderedLeft,
          Term.filter_entries] at kept
        rw [element, Term.filter_later_entries orderedRight, Term.filter_entries] at kept
        simpa using kept
      obtain rfl := Term.eq_of_entries element entries
      have rest := List.append_cancel_left same
      rw [ih (fun t inside => filledLeft t (List.mem_cons_of_mem _ inside))
        (fun u inside => filledRight u (List.mem_cons_of_mem _ inside))
        orderedLeft.of_cons orderedRight.of_cons rest]

section Probe

variable {M : Type} [AddCommGroup M] [Module Rat M]

/-- Functionals that read off the coefficient of each blade with each of some power sequences. -/
structure Probe (weight : Nat → List Power → M) (powers : Set (List Power)) where
  read : Nat → List Power → M →ₗ[Rat] Rat
  read_weight : ∀ e f, ∀ ps ∈ powers, ∀ qs ∈ powers,
    read e ps (weight f qs) = if f = e ∧ qs = ps then 1 else 0

variable {weight : Nat → List Power → M} {powers : Set (List Power)}

/-- What is read off a total is the coefficient of the entry there, if there is one. -/
theorem Probe.read_total (probe : Probe weight powers) {ps : List Power} (admitted : ps ∈ powers)
    (element : Nat) {entries : List Entry} (ordered : entries.Pairwise Entry.Before)
    (all : ∀ e ∈ entries, e.monomial.powers ∈ powers) :
    (∀ e ∈ entries, e.element = element → e.monomial.powers = ps →
        probe.read element ps (weightedSum weight entries) = e.monomial.coefficient) ∧
      ((∀ e ∈ entries, ¬ (e.element = element ∧ e.monomial.powers = ps)) →
        probe.read element ps (weightedSum weight entries) = 0) := by
  induction entries with
  | nil => simp
  | cons e rest ih =>
    obtain ⟨before, orderedRest⟩ := List.pairwise_cons.mp ordered
    obtain ⟨found, absent⟩ := ih orderedRest fun f inside => all f (List.mem_cons_of_mem _ inside)
    -- Each entry is read off where it is, and as zero elsewhere.
    have first := probe.read_weight element e.element ps admitted _ (all e (by simp))
    have split : probe.read element ps (weightedSum weight (e :: rest)) =
        (if e.element = element ∧ e.monomial.powers = ps then e.monomial.coefficient else 0) +
          probe.read element ps (weightedSum weight rest) := by
      rw [weightedSum_cons, map_add, map_smul, first]
      split <;> simp
    rw [split]
    constructor
    · intro f inside onBlade withPowers
      rcases List.mem_cons.mp inside with rfl | later
      · -- No later entry has the same blade and powers.
        have none : ∀ g ∈ rest, ¬ (g.element = element ∧ g.monomial.powers = ps) := by
          rintro g member ⟨rfl, rfl⟩
          exact (before g member).differs ⟨onBlade, withPowers⟩
        rw [if_pos ⟨onBlade, withPowers⟩, absent none, add_zero]
      · have other : ¬ (e.element = element ∧ e.monomial.powers = ps) := by
          rintro ⟨rfl, rfl⟩
          exact (before f later).differs ⟨onBlade.symm, withPowers.symm⟩
        rw [if_neg other, found f later onBlade withPowers, zero_add]
    · intro none
      rw [if_neg (none e (by simp)), absent fun f inside => none f (List.mem_cons_of_mem _ inside),
        zero_add]

/-- An entry of one canonical multivector is an entry of another one with the same total. -/
theorem Probe.mem_of_total (probe : Probe weight powers) {xs ys : List Entry}
    (left : xs.Pairwise Entry.Before) (right : ys.Pairwise Entry.Before)
    (leftPowers : ∀ e ∈ xs, e.monomial.powers ∈ powers)
    (rightPowers : ∀ e ∈ ys, e.monomial.powers ∈ powers)
    (nonzero : ∀ e ∈ xs, e.monomial.coefficient ≠ 0) (equal : weightedSum weight xs = weightedSum weight ys) :
    ∀ e ∈ xs, e ∈ ys := by
  intro e inside
  have value := (probe.read_total (leftPowers e inside) e.element left leftPowers).1 e inside rfl rfl
  obtain ⟨found, absent⟩ := probe.read_total (leftPowers e inside) e.element right rightPowers
  rw [equal] at value
  -- Without it, the coefficient that is read off the other total would be zero.
  by_contra missing
  refine nonzero e inside (value.symm.trans (absent ?_))
  rintro f member ⟨element, same⟩
  have coefficient := value.symm.trans (found f member element same)
  have : e = f := by
    obtain ⟨_, _, _⟩ := e
    obtain ⟨_, _, _⟩ := f
    simp_all
  exact missing (this ▸ member)

/-- Canonical multivectors with the same total have the same terms. -/
theorem Probe.terms_eq (probe : Probe weight powers) {a b : Multivector} (left : a.Canonical)
    (right : b.Canonical) (leftPowers : ∀ e ∈ a.entries, e.monomial.powers ∈ powers)
    (rightPowers : ∀ e ∈ b.entries, e.monomial.powers ∈ powers)
    (equal : weightedSum weight a.entries = weightedSum weight b.entries) : a.terms = b.terms := by
  -- Canonical entries have no coefficient of zero.
  have nonzero {c : Multivector} (canonical : c.Canonical) :
      ∀ e ∈ c.entries, e.monomial.coefficient ≠ 0 := by
    intro e inside
    obtain ⟨t, member, entry⟩ := List.mem_flatMap.mp inside
    obtain ⟨m, monomial, rfl⟩ := List.mem_map.mp entry
    exact ((canonical.terms t member).monomials m monomial).nonzero
  have forward := probe.mem_of_total left.entries_ordered right.entries_ordered leftPowers
    rightPowers (nonzero left) equal
  have backward := probe.mem_of_total right.entries_ordered left.entries_ordered rightPowers
    leftPowers (nonzero right) equal.symm
  exact terms_eq_of_entries a.terms (fun t inside => (left.terms t inside).nonempty)
    (fun t inside => (right.terms t inside).nonempty) left.ordered right.ordered
    (eq_of_ordered left.entries_ordered right.entries_ordered
      fun e => ⟨forward e, backward e⟩)

end Probe

end Clifford
