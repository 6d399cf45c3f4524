import Clifford.Multivector.Canonical
import Clifford.Proofs.Multivector.Order
import Clifford.Proofs.Result

/-! The canonical form as a predicate: it is what the check accepts, and a multivector in this form
is determined by the set of its entries. -/

namespace Clifford

open Std

/-- A sequence of powers whose ids increase. -/
def Increasing (powers : List Power) : Prop := (powers.map (·.id)).Pairwise (· < ·)

/-- A monomial stands before another one in the canonical order. -/
def Monomial.Before (m n : Monomial) : Prop :=
  ∃ k l, MonomialKey.ofPowers m.powers = .ok k ∧ MonomialKey.ofPowers n.powers = .ok l ∧
    MonomialKey.compare k l = .lt

/-- A monomial that a canonical multivector can hold. -/
structure Monomial.Canonical (m : Monomial) : Prop where
  nonzero : m.coefficient ≠ 0
  increasing : Increasing m.powers
  keyed : ∃ key, MonomialKey.ofPowers m.powers = .ok key

/-- A term with monomials in order. -/
structure Term.Canonical (t : Term) : Prop where
  nonempty : t.monomials ≠ []
  monomials : ∀ m ∈ t.monomials, m.Canonical
  ordered : t.monomials.Pairwise Monomial.Before

/-- A multivector with terms in order. -/
structure Multivector.Canonical (a : Multivector) : Prop where
  terms : ∀ t ∈ a.terms, t.Canonical
  ordered : a.elements.Pairwise (· < ·)

namespace Monomial

/-- The order of monomials is transitive. -/
theorem Before.trans {l m n : Monomial} (first : l.Before m) (second : m.Before n) :
    l.Before n := by
  obtain ⟨j, k, left, middle, less⟩ := first
  obtain ⟨k', i, middle', right, less'⟩ := second
  obtain rfl : k = k' := by simpa [middle] using middle'
  -- The middle monomial has one key.
  exact ⟨j, i, left, right, TransCmp.lt_trans less less'⟩

/-- No monomial stands before itself. -/
theorem Before.irrefl (m : Monomial) : ¬ m.Before m := by
  rintro ⟨k, l, left, right, less⟩
  obtain rfl : k = l := by simpa [left] using right
  simp [ReflCmp.compare_self] at less

end Monomial

instance : Trans Monomial.Before Monomial.Before Monomial.Before := ⟨Monomial.Before.trans⟩

namespace Multivector

/-- A condition is ensured when it holds. -/
theorem ensure_eq_ok (condition : Bool) (cause : Violation) (u : Unit) :
    ensure condition cause = .ok u ↔ condition = true := by
  cases condition <;> simp [ensure]

/-- The check of ids is the order of a sequence of powers. -/
theorem increasing_iff (ids : List Nat) : increasing ids = true ↔ ids.Pairwise (· < ·) := by
  -- Comparing neighbours is enough, since the order is transitive.
  rw [← List.isChain_iff_pairwise]
  induction ids with
  | nil => simp [increasing]
  | cons x rest ih =>
    cases rest with
    | nil => simp [increasing]
    | cons y rest => simp [increasing, ih]

/-- The check of monomials, against the one before them. -/
theorem checkMonomials_eq_ok (name : String) (element : Nat) (u : Unit) (ms : List Monomial) :
    ∀ previous, checkMonomials name element previous ms = .ok u ↔
      (∀ m ∈ ms, m.Canonical) ∧ ms.IsChain Monomial.Before ∧
        ∀ before ∈ previous, ∀ m ∈ ms.head?, ∀ key, MonomialKey.ofPowers m.powers = .ok key →
          MonomialKey.compare before key = .lt := by
  induction ms with
  | nil => simp [checkMonomials]
  | cons m rest ih =>
    intro previous
    -- One step of the check looks at the coefficient, the ids and the key, and then at the rest.
    simp only [checkMonomials, Result.bind_eq_ok, ensure_eq_ok, increasing_iff, ih]
    constructor
    · -- What was checked of the rest includes its first monomial against this one.
      rintro ⟨-, nonzero, -, ordered, key, keyed, -, above, others, chain, next⟩
      refine ⟨?_, ?_, ?_⟩
      · intro n inside
        rcases List.mem_cons.mp inside with rfl | later
        · exact ⟨by simpa using nonzero, ordered, key, keyed⟩
        · exact others n later
      · cases rest with
        | nil => simp
        | cons n rest =>
          obtain ⟨-, -, l, right⟩ := others n (by simp)
          have less := next key rfl n (by simp) l right
          exact .cons_cons ⟨key, l, keyed, right, less⟩ chain
      · rintro before found n first l right
        obtain rfl : m = n := by simpa using first
        obtain rfl : key = l := by simpa [keyed] using right
        cases found
        simpa using above
    · -- Conversely the order gives every step what it looks at.
      rintro ⟨all, chain, above⟩
      obtain ⟨nonzero, ordered, key, keyed⟩ := all m (by simp)
      refine ⟨(), by simpa using nonzero, (), ordered, key, keyed, (), ?_, ?_, chain.tail, ?_⟩
      · cases previous with
        | none => rfl
        | some before => simpa using above before rfl m (by simp) key keyed
      · exact fun n inside => all n (List.mem_cons_of_mem _ inside)
      · intro before found n first l right
        cases found
        cases rest with
        | nil => simp at first
        | cons n' rest =>
          obtain rfl : n' = n := by simpa using first
          obtain ⟨k, l', left, right', less⟩ := (List.isChain_cons_cons.mp chain).1
          obtain rfl : key = k := by simpa [keyed] using left
          obtain rfl : l' = l := by simpa [right] using right'.symm
          exact less

/-- The check of terms, against the blade before them. -/
theorem checkTerms_eq_ok (name : String) (u : Unit) (ts : List Term) :
    ∀ previous : Int, checkTerms name previous ts = .ok u ↔
      (∀ t ∈ ts, t.Canonical ∧ previous < t.element) ∧
        (ts.map (·.element)).Pairwise (· < ·) := by
  induction ts with
  | nil => simp [checkTerms]
  | cons t rest ih =>
    intro previous
    -- A step checks the blade, that there are monomials, and the monomials against nothing before
    -- them.
    simp only [checkTerms, Result.bind_eq_ok, ensure_eq_ok, checkMonomials_eq_ok, ih,
      List.isChain_iff_pairwise]
    constructor
    · rintro ⟨-, above, -, nonempty, -, ⟨monomials, ordered, -⟩, others, sorted⟩
      have first : t.Canonical := ⟨by simpa using nonempty, monomials, ordered⟩
      have after : previous < t.element := by simpa using above
      refine ⟨?_, ?_⟩
      · intro u inside
        rcases List.mem_cons.mp inside with rfl | later
        · exact ⟨first, after⟩
        · exact ⟨(others u later).1, after.trans (others u later).2⟩
      · refine List.pairwise_cons.mpr ⟨?_, sorted⟩
        intro element inside
        obtain ⟨u, later, rfl⟩ := List.mem_map.mp inside
        exact_mod_cast (others u later).2
    · rintro ⟨all, sorted⟩
      obtain ⟨⟨nonempty, monomials, ordered⟩, above⟩ := all t (by simp)
      obtain ⟨after, rest⟩ := List.pairwise_cons.mp sorted
      refine ⟨(), by simpa using above, (), by simpa using nonempty, (),
        ⟨monomials, ordered, by simp⟩, ?_, rest⟩
      intro u later
      refine ⟨(all u (List.mem_cons_of_mem _ later)).1, ?_⟩
      exact_mod_cast after u.element (List.mem_map_of_mem later)

/-- The check accepts exactly the multivectors in canonical form. -/
theorem checkCanonical_eq_ok (a : Multivector) (name : String) :
    a.checkCanonical name = .ok () ↔ a.Canonical := by
  rw [checkCanonical, if_pos rfl, checkTerms_eq_ok]
  constructor
  · rintro ⟨terms, ordered⟩
    exact ⟨fun t inside => (terms t inside).1, ordered⟩
  · rintro ⟨terms, ordered⟩
    -- Every blade is above minus one, where the check starts.
    exact ⟨fun t inside => ⟨terms t inside, by omega⟩, ordered⟩

instance : DecidablePred Canonical := fun a => decidable_of_iff _ (a.checkCanonical_eq_ok "")

end Multivector

end Clifford
