import Clifford.Proofs.Multivector.Closed
import Clifford.Proofs.Multivector.Reading
import Clifford.Proofs.Multivector.Totality

/-! Totals: entries with integer coefficients collate to the same multivector exactly when their
coefficients have the same sum on every blade with every power sequence. -/

namespace Clifford

open Finsupp

/-- Entries with integers as their coefficients. -/
def IntegerEntries (entries : List Entry) : Prop :=
  ∀ e ∈ entries, e.monomial.coefficient.den = 1

/-- The sum of the coefficients on a blade with a power sequence. -/
def coefficientSum (entries : List Entry) (element : Nat) (powers : List Power) : Rat :=
  ((entries.filter fun e => e.element = element ∧ e.monomial.powers = powers).map fun e =>
    e.monomial.coefficient).sum

variable {entries entries' : List Entry} {a b : Multivector}

/-- Integers pass the gate. -/
theorem IntegerEntries.dyadic (integers : IntegerEntries entries) : DyadicEntries 0 entries :=
  fun e inside => Dyadic.zero_iff.mpr (integers e inside)

/-- The coefficients on a blade with a power sequence, read off the formal total of all entries. -/
theorem coefficientSum_eq (entries : List Entry) (element : Nat) (powers : List Power) :
    coefficientSum entries element powers =
      Reading.coordinate element powers (weightedSum Reading.free.weight entries) := by
  -- Each entry adds its coefficient to one coordinate of the total and nothing to the others.
  induction entries with
  | nil => simp [coefficientSum]
  | cons e rest ih =>
    have first := Reading.freeProbe.read_weight element e.element powers (Set.mem_univ _)
      e.monomial.powers (Set.mem_univ _)
    rw [weightedSum_cons, map_add, map_smul, ← ih, coefficientSum, coefficientSum, List.filter_cons]
    change Reading.coordinate element powers _ = _ at first
    rw [first]
    split <;> simp_all

/-- Entries have the same sums of coefficients exactly when they have the same formal total. -/
theorem coefficientSum_eq_iff :
    (∀ element powers, coefficientSum entries element powers =
        coefficientSum entries' element powers) ↔
      weightedSum Reading.free.weight entries = weightedSum Reading.free.weight entries' := by
  simp only [coefficientSum_eq]
  -- A formal total is determined by its coordinates.
  constructor
  · intro same
    ext element powers
    exact same element powers
  · intro same element powers
    rw [same]

/-- Entries with integer coefficients are collated exactly when each of them has a total degree. -/
theorem collates_iff (integers : IntegerEntries entries) :
    (∃ a, collate entries = .ok a) ↔
      ∀ e ∈ entries, ∃ degree, totalDegree e.monomial.powers = .ok degree := by
  -- A place in the order is the total degree with the powers, so one exists where the other does.
  have keys : (∀ e ∈ entries, ∃ key, MonomialKey.ofPowers e.monomial.powers = .ok key) ↔
      ∀ e ∈ entries, ∃ degree, totalDegree e.monomial.powers = .ok degree := by
    refine forall₂_congr fun e _ => ?_
    constructor
    · rintro ⟨key, keyed⟩
      obtain ⟨degree, sum, -⟩ := Result.bind_eq_ok.mp keyed
      exact ⟨degree, sum⟩
    · rintro ⟨degree, sum⟩
      exact ⟨⟨degree, e.monomial.powers⟩, by rw [MonomialKey.ofPowers, sum]; rfl⟩
  rw [← keys]
  -- Integers pass the gate, so that nothing but a missing place can stop the collation.
  constructor
  · rintro ⟨a, collated⟩
    exact exists_key_of_collate collated
  · intro keyed
    -- An integer is a dyadic number with the exponent zero, so no sum of them leaves the exact range.
    obtain ⟨a, collated, -⟩ := collate_total Reading.free.weight (Nat.zero_le _) integers.dyadic
      keyed .identity 1
    exact ⟨a, collated⟩

/-- Collation keeps the total of integer coefficients, and that they are integers. -/
theorem collate_keeps (integers : IntegerEntries entries) (collated : collate entries = .ok a) :
    IntegerEntries a.entries ∧
      weightedSum Reading.free.weight a.entries = weightedSum Reading.free.weight entries := by
  obtain ⟨b, again, dyadic, total⟩ := collate_total Reading.free.weight (Nat.zero_le _)
    integers.dyadic (exists_key_of_collate collated) .identity 1
  obtain rfl : a = b := Except.ok.inj (collated.symm.trans again)
  exact ⟨fun e inside => Dyadic.zero_iff.mp (dyadic e inside), total⟩

/-- Collated multivectors are the same exactly when the totals of what they collate are. -/
theorem collate_eq_iff (integers : IntegerEntries entries) (integers' : IntegerEntries entries')
    (increasing : IncreasingEntries entries) (increasing' : IncreasingEntries entries')
    (left : collate entries = .ok a) (right : collate entries' = .ok b) :
    a = b ↔ ∀ element powers,
      coefficientSum entries element powers = coefficientSum entries' element powers := by
  -- The totals can be taken after the collation, where canonical forms are compared.
  rw [coefficientSum_eq_iff, ← (collate_keeps integers left).2, ← (collate_keeps integers' right).2]
  constructor
  · rintro rfl
    rfl
  · intro same
    -- Two canonical forms with the same formal total have the same terms.
    have terms := Reading.freeProbe.terms_eq (collate_canonical increasing left)
      (collate_canonical increasing' right) (fun _ _ => Set.mem_univ _) (fun _ _ => Set.mem_univ _)
      same
    -- Apart from its terms, what is collated has no function and no multiplier.
    obtain ⟨op, opScale⟩ := collate_plain left
    obtain ⟨op', opScale'⟩ := collate_plain right
    cases a
    cases b
    simp_all

/-- Entries in another order collate to the same multivector, or overflow as well. -/
theorem collate_perm (integers : IntegerEntries entries) (increasing : IncreasingEntries entries)
    (perm : entries.Perm entries') : collate entries = collate entries' := by
  have integers' : IntegerEntries entries' := fun e inside => integers e (perm.mem_iff.mpr inside)
  have increasing' : IncreasingEntries entries' := fun e inside =>
    increasing e (perm.mem_iff.mpr inside)
  -- Whether a collation returns is a matter of the single entries, which are the same in both.
  have returns : (∃ a, collate entries = .ok a) ↔ ∃ b, collate entries' = .ok b := by
    rw [collates_iff integers, collates_iff integers']
    exact ⟨fun keyed e inside => keyed e (perm.mem_iff.mpr inside),
      fun keyed e inside => keyed e (perm.mem_iff.mp inside)⟩
  cases left : collate entries with
  | ok a =>
    -- In another order the coefficients have the same sums.
    obtain ⟨b, right⟩ := returns.mp ⟨a, left⟩
    have same := (collate_eq_iff integers integers' increasing increasing' left right).mpr
      (coefficientSum_eq_iff.mpr (weightedSum_perm _ perm))
    rw [right, same]
  | error cause =>
    cases right : collate entries' with
    | ok b =>
      obtain ⟨a, found⟩ := returns.mpr ⟨b, right⟩
      rw [left] at found
      cases found
    | error cause' =>
      -- Overflow is the one cause that both can have.
      rw [collate_error left, collate_error right]

/-- Entries collate to the same multivector when parts of them are collated before. -/
theorem collate_append (integers : IntegerEntries entries) (integers' : IntegerEntries entries')
    (increasing : IncreasingEntries entries) (increasing' : IncreasingEntries entries')
    (left : collate entries = .ok a) (right : collate entries' = .ok b) :
    collate (a.entries ++ b.entries) = collate (entries ++ entries') := by
  -- Collation keeps the totals, so that those of the parts add up to the total of all entries.
  have both {P : Entry → Prop} {xs ys : List Entry} (first : ∀ e ∈ xs, P e)
      (second : ∀ e ∈ ys, P e) : ∀ e ∈ xs ++ ys, P e := fun e inside =>
    (List.mem_append.mp inside).elim (first e) (second e)
  obtain ⟨whole, total⟩ := collate_keeps integers left
  obtain ⟨whole', total'⟩ := collate_keeps integers' right
  have canonical := collate_canonical increasing left
  have canonical' := collate_canonical increasing' right
  -- Both lists have keys: those of the given entries, and those of their canonical forms.
  have degrees {c : Multivector} (canonical : c.Canonical) :
      ∀ e ∈ c.entries, ∃ degree, totalDegree e.monomial.powers = .ok degree := by
    intro e inside
    obtain ⟨key, keyed⟩ := (canonical.entry inside).keyed
    obtain ⟨degree, sum, -⟩ := Result.bind_eq_ok.mp keyed
    exact ⟨degree, sum⟩
  obtain ⟨c, parts⟩ := (collates_iff (both whole whole')).mpr
    (both (degrees canonical) (degrees canonical'))
  obtain ⟨d, all⟩ := (collates_iff (both integers integers')).mpr
    (both ((collates_iff integers).mp ⟨a, left⟩) ((collates_iff integers').mp ⟨b, right⟩))
  have same := (collate_eq_iff (both whole whole') (both integers integers')
    (both canonical.increasing canonical'.increasing) (both increasing increasing') parts all).mpr
    (coefficientSum_eq_iff.mpr (by
      rw [weightedSum_append, weightedSum_append, total, total']))
  rw [parts, all, same]

/-- Entries with integer coefficients are collated exactly when each of them has a total degree, as the
only failure is overflow. Then the sums of their coefficients, on every blade with every power
sequence, determine what they collate to, whatever their order and in whatever parts. -/
theorem collate_unique (integers : IntegerEntries entries) (integers' : IntegerEntries entries')
    (increasing : IncreasingEntries entries) (increasing' : IncreasingEntries entries') :
    ((∃ a, collate entries = .ok a) ↔
      ∀ e ∈ entries, ∃ degree, totalDegree e.monomial.powers = .ok degree) ∧
    (∀ cause, collate entries = .error cause → cause = .quotientOverflow) ∧
    (∀ a b, collate entries = .ok a → collate entries' = .ok b →
      (a = b ↔ ∀ element powers,
        coefficientSum entries element powers = coefficientSum entries' element powers)) ∧
    (entries.Perm entries' → collate entries = collate entries') ∧
    (∀ a b, collate entries = .ok a → collate entries' = .ok b →
      collate (a.entries ++ b.entries) = collate (entries ++ entries')) :=
  ⟨collates_iff integers, fun _ => collate_error,
    fun _ _ => collate_eq_iff integers integers' increasing increasing',
    collate_perm integers increasing,
    fun _ _ => collate_append integers integers' increasing increasing'⟩

/-- Two coefficients on a blade that cancel, and two whose sum is the third one. -/
theorem collate_unique_cancelled :
    let entries := [Entry.of 3 2 [⟨0, 3⟩], Entry.of 0 5 [], Entry.of 3 (-2) [⟨0, 3⟩],
      Entry.of 0 (-1) []]
    ∃ a, collate entries = .ok a ∧ collate [Entry.of 0 4 []] = .ok a := by
  intro entries
  have integers : IntegerEntries entries := by unfold IntegerEntries; decide +kernel
  have integer : IntegerEntries [Entry.of 0 4 []] := by unfold IntegerEntries; decide +kernel
  have increasing : IncreasingEntries entries := by
    simp [IncreasingEntries, entries, Entry.of, Increasing]
  have single : IncreasingEntries [Entry.of 0 4 []] := by
    simp [IncreasingEntries, Entry.of, Increasing]
  -- The cubes cancel, and the constants add up to four.
  obtain ⟨returns, -, same, -⟩ := collate_unique integers integer increasing single
  obtain ⟨returns', -⟩ := collate_unique integer integers single increasing
  have cube : totalDegree [⟨0, 3⟩] = .ok 3 := by decide +kernel
  have none : totalDegree [] = .ok 0 := rfl
  obtain ⟨a, left⟩ := returns.mpr (by simp [entries, Entry.of, cube, none])
  obtain ⟨b, right⟩ := returns'.mpr (by simp [Entry.of, none])
  obtain rfl := (same a b left right).mpr (coefficientSum_eq_iff.mpr (by
    simp only [entries, Entry.of, weightedSum_cons, weightedSum_nil]
    module))
  exact ⟨a, left, right⟩

/-- Opposite coefficients of an indeterminate whose degree has no double are not collated, although
their sum is that of nothing at all. -/
theorem not_collate_unique : ¬ ∀ entries entries' : List Entry, IntegerEntries entries →
    IntegerEntries entries' → IncreasingEntries entries → IncreasingEntries entries' →
      (collate entries = collate entries' ↔ ∀ element powers,
        coefficientSum entries element powers = coefficientSum entries' element powers) := by
  intro unique
  -- A degree beyond the largest double, with a denominator that sends it through the gate.
  obtain ⟨powers, increasing, overflow⟩ : ∃ powers : List Power, Increasing powers ∧
      totalDegree powers = .error .quotientOverflow :=
    ⟨[⟨0, 2 ^ 1036 / 1031⟩], List.pairwise_singleton _ _, by decide +kernel⟩
  have nothing : collate [] = .ok .zero := by
    simp [collate, collateTerms, KeyedEntry.merge, KeyedEntry.group, Multivector.zero]
  let entries := [Entry.of 0 1 powers, Entry.of 0 (-1) powers]
  have integers : IntegerEntries entries := by simp [IntegerEntries, entries, Entry.of]
  have sums : ∀ element ps, coefficientSum entries element ps = coefficientSum [] element ps := by
    intro element ps
    by_cases place : 0 = element ∧ powers = ps <;> simp [coefficientSum, entries, Entry.of, place]
  -- Collated to nothing, the entries would have total degrees.
  have same := (unique entries [] integers (by simp [IntegerEntries])
    (by simp [IncreasingEntries, entries, Entry.of, increasing]) (by simp [IncreasingEntries])).mpr sums
  obtain ⟨degree, sum⟩ := (collates_iff integers).mp ⟨_, same.trans nothing⟩ (Entry.of 0 1 powers)
    (by simp [entries])
  cases overflow.symm.trans sum

end Clifford
