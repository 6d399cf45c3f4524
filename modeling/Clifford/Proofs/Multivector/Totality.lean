import Clifford.Proofs.Failure
import Clifford.Proofs.Multivector.Collate
import Clifford.Proofs.Rational.Gate

/-! Totality of collation: it fails by overflow alone, and not where the coefficients and degrees that it
adds up stay inside the range of doubles. -/

namespace Clifford

/-- Numbers whose sums stay inside the range of doubles, when each addition may add one. -/
def InRange (xs : List Rat) : Prop := (xs.map fun x => |x| + 1).sum ≤ 2 ^ 1000

/-- Entries whose coefficients and whose degrees have sums inside the range of doubles. -/
structure EntriesInRange (entries : List Entry) : Prop where
  coefficients : InRange (entries.map fun e => e.monomial.coefficient)
  degrees : ∀ e ∈ entries, InRange (e.monomial.powers.map (·.degree))

/-- Adding one of some numbers in range to a sum leaves the new sum in range with the others. -/
theorem exists_gatedAdd_inRange {total x others : Rat} (nonneg : 0 ≤ others)
    (range : |total| + (|x| + 1 + others) ≤ 2 ^ 1000) :
    ∃ next, gatedAdd total x = .ok next ∧ |next| + others ≤ 2 ^ 1000 := by
  have step := abs_add_le total x
  obtain ⟨next, gated⟩ := exists_gate (x := total + x) (le_trans (by linarith) range)
  -- The gate may move the sum by one.
  have bound := abs_le_of_gate gated
  exact ⟨next, gated, le_trans (by linarith) range⟩

/-- The total degree of powers in range exists. -/
theorem exists_totalDegree_inRange {powers : List Power}
    (range : InRange (powers.map (·.degree))) : ∃ degree, totalDegree powers = .ok degree := by
  -- The sum so far and the degrees that are left stay in range.
  have general : ∀ total : Rat, |total| + ((powers.map (·.degree)).map fun x => |x| + 1).sum ≤ 2 ^ 1000 →
      ∃ degree, powers.foldlM (fun total power => gatedAdd total power.degree) total =
        .ok degree := by
    clear range
    induction powers with
    | nil => exact fun total _ => ⟨total, rfl⟩
    | cons p rest ih =>
      intro total range
      simp only [List.map_cons, List.sum_cons] at range ih
      have others : 0 ≤ ((rest.map (·.degree)).map fun x => |x| + 1).sum :=
        List.sum_nonneg (by simp; intros; positivity)
      obtain ⟨next, gated, bound⟩ := exists_gatedAdd_inRange others range
      obtain ⟨degree, later⟩ := ih next bound
      exact ⟨degree, by rw [List.foldlM_cons, gated, Result.ok_bind, later]⟩
  exact general 0 (by rw [abs_zero, zero_add]; exact range)

/-- The total degree of powers fails by overflow alone. -/
theorem totalDegree_error {powers : List Power} {cause : Error}
    (failed : totalDegree powers = .error cause) : cause = .quotientOverflow := by
  -- One gated addition follows the other, whatever the sum so far is.
  have steps : Result.FailsOnly (· = .quotientOverflow) (totalDegree powers) :=
    .foldlM (S := fun _ => True) (fun _ _ _ _ => ⟨fun _ => gate_error, fun _ _ => trivial⟩) trivial
  exact steps cause failed

namespace KeyedEntry

/-- Adding up runs fails by overflow alone. -/
theorem sumRuns_error (rest : List KeyedEntry) : ∀ {current : KeyedEntry} {cause : Error},
    sumRuns current rest = .error cause → cause = .quotientOverflow := by
  -- A run goes on with a gated sum, or it ends and the next one starts.
  induction rest with
  | nil => exact fun failed => by cases failed
  | cons e rest ih =>
    intro current cause failed
    rw [sumRuns] at failed
    split at failed
    · rcases Result.bind_eq_error.mp failed with first | ⟨total, -, later⟩
      · exact gate_error first
      · exact ih later
    · rcases Result.bind_eq_error.mp failed with later | ⟨out, -, done⟩
      · exact ih later
      · cases done

/-- Merging runs fails by overflow alone. -/
theorem merge_error {es : List KeyedEntry} {cause : Error} (failed : merge es = .error cause) :
    cause = .quotientOverflow := by
  cases es with
  | nil => cases failed
  | cons first others =>
    rcases Result.bind_eq_error.mp failed with sums | ⟨out, -, done⟩
    · exact sumRuns_error others sums
    · cases done

/-- Runs of entries whose coefficients are in range are added up. -/
theorem exists_sumRuns (rest : List KeyedEntry) : ∀ {current : KeyedEntry},
    |current.coefficient| + (rest.map fun e => |e.coefficient| + 1).sum ≤ 2 ^ 1000 →
      ∃ out, sumRuns current rest = .ok out := by
  -- The sum of the run so far and the coefficients that are left stay in range.
  induction rest with
  | nil => exact fun _ => ⟨_, rfl⟩
  | cons e rest ih =>
    intro current range
    rw [List.map_cons, List.sum_cons] at range
    have others : 0 ≤ (rest.map fun e => |e.coefficient| + 1).sum :=
      List.sum_nonneg (by simp; intros; positivity)
    rw [sumRuns]
    split
    · obtain ⟨total, gated, bound⟩ := exists_gatedAdd_inRange others range
      rw [gated, Result.ok_bind]
      exact ih bound
    · -- A run that ends leaves its sum out of what is to be added.
      have nonneg := abs_nonneg current.coefficient
      obtain ⟨out, later⟩ := @ih e (le_trans (by linarith) range)
      exact ⟨current :: out, by rw [later]; rfl⟩

/-- Entries whose coefficients are in range are merged. -/
theorem exists_merge {es : List KeyedEntry} (range : (es.map fun e => |e.coefficient| + 1).sum ≤ 2 ^ 1000) :
    ∃ merged, merge es = .ok merged := by
  -- The runs start from the first coefficient.
  cases es with
  | nil => exact ⟨[], rfl⟩
  | cons first rest =>
    rw [List.map_cons, List.sum_cons] at range
    obtain ⟨out, runs⟩ := @exists_sumRuns rest first (le_trans (by linarith) range)
    exact ⟨_, by rw [merge, runs]; rfl⟩

/-- The places of entries have their coefficients. -/
theorem coefficients_of_mapM {entries : List Entry} {keyed : List KeyedEntry}
    (made : entries.mapM ofEntry = .ok keyed) :
    keyed.map (·.coefficient) = entries.map fun e => e.monomial.coefficient := by
  -- Every place keeps the entry that it is the place of.
  have pairs := Result.mapM_eq_ok.mp made
  clear made
  induction pairs with
  | nil => rfl
  | cons first _ ih =>
    rw [List.map_cons, List.map_cons, ih, ← (toEntry_of_ofEntry first).1]
    rfl

end KeyedEntry

variable {entries : List Entry} {op : Deferred} {opScale : Rat}

/-- Collation fails by overflow alone. -/
theorem collate_error {cause : Error} (failed : collate entries op opScale = .error cause) :
    cause = .quotientOverflow := by
  -- Places need total degrees and runs need sums, and nothing else can fail.
  have place (e : Entry) : Result.FailsOnly (· = .quotientOverflow) (KeyedEntry.ofEntry e) :=
    .bind (.bind (fun _ => totalDegree_error) fun _ _ => .ok _) fun _ _ => .ok _
  have terms : Result.FailsOnly (· = .quotientOverflow) (collateTerms entries) :=
    .bind (.mapM fun e _ => place e) fun _ _ =>
      .bind (fun _ => KeyedEntry.merge_error) fun _ _ => .ok _
  exact terms.bind (fun _ _ => .ok _) cause failed

/-- Entries in range are collated. -/
theorem exists_collate (range : EntriesInRange entries) :
    ∃ a, collate entries op opScale = .ok a := by
  -- Degrees in range have a total.
  have keys : ∀ e ∈ entries, ∃ keyed, KeyedEntry.ofEntry e = .ok keyed := by
    intro e inside
    obtain ⟨degree, sum⟩ := exists_totalDegree_inRange (range.degrees e inside)
    exact ⟨⟨e.element, ⟨degree, e.monomial.powers⟩, e.monomial.coefficient⟩, by
      rw [KeyedEntry.ofEntry, MonomialKey.ofPowers, sum]; rfl⟩
  obtain ⟨keyed, mapped⟩ := Result.exists_mapM_ok keys
  -- Sorting does not change the sum that has to be in range.
  have perm := List.mergeSort_perm keyed fun a b => (KeyedEntry.compare a b).isLE
  have bound : ((keyed.mergeSort fun a b => (KeyedEntry.compare a b).isLE).map
      fun e => |e.coefficient| + 1).sum ≤ 2 ^ 1000 := by
    refine le_trans (perm.map _).sum_eq.le ?_
    have coefficients := range.coefficients
    rwa [InRange, ← KeyedEntry.coefficients_of_mapM mapped, List.map_map] at coefficients
  obtain ⟨merged, summed⟩ := KeyedEntry.exists_merge bound
  refine ⟨⟨KeyedEntry.group merged, op, opScale⟩, ?_⟩
  rw [collate, collateTerms, mapped, Result.ok_bind]
  dsimp only
  rw [summed]
  rfl

end Clifford
