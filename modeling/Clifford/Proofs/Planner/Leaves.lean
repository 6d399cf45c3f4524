import Clifford.Planner
import Clifford.Proofs.Multivector.Denotes
import Clifford.Proofs.Multivector.Fresh

/-! Symbolic leaves: the coefficients that numbers for the inputs give to them, and the leaves of kinds
of entities. -/

namespace Clifford

namespace Multivector

variable {dim bound : Nat} {F : Functions dim} {ρ : Nat → Rat} {a : Multivector} {x : Dense}

/-- The value of an entry at an assignment. -/
def entryValue (ρ : Nat → Rat) (e : Entry) : Rat :=
  e.monomial.coefficient * (e.monomial.powers.map (Power.valueAt ρ)).prod

/-- The coefficients of a leaf at an assignment, if its blades lie in the space. -/
def leafValue (dim : Nat) (ρ : Nat → Rat) (a : Multivector) : Option Dense :=
  if ∀ e ∈ a.elements, e < dim then
    some fun blade => ((a.entries.filter fun e => e.element = blade).map (entryValue ρ)).sum
  else none

/-- The degrees of a multivector are integers that are not negative. -/
def HasNaturalDegrees (a : Multivector) : Prop :=
  ∀ e ∈ a.entries, ∀ p ∈ e.monomial.powers, p.degree.den = 1 ∧ 0 ≤ p.degree

/-- The ids of a multivector lie below a bound. -/
def HasIdsBelow (bound : Nat) (a : Multivector) : Prop :=
  ∀ e ∈ a.entries, ∀ p ∈ e.monomial.powers, p.id < bound

/-- A leaf over some inputs, with coefficients one and minus one and with natural degrees. -/
structure IsUnitLeaf (bound : Nat) (a : Multivector) : Prop where
  canonical : a.Canonical
  plain : a.Plain
  units : a.HasUnits
  degrees : a.HasNaturalDegrees
  ids : a.HasIdsBelow bound

/-- The value of a multivector at an assignment adds up its entries blade by blade. -/
theorem read_assigned (ρ : Nat → Rat) (a : Multivector) (blade : Nat) :
    (Reading.assigned ρ).read a blade =
      ((a.entries.filter fun e => e.element = blade).map (entryValue ρ)).sum := by
  -- Both sides add up the entries, of which only those on the blade count.
  rw [Reading.read]
  induction a.entries with
  | nil => rfl
  | cons e rest ih =>
    rw [weightedSum_cons, Finsupp.add_apply, ih, Reading.weight, Finsupp.smul_single]
    by_cases same : e.element = blade
    · simp [same, entryValue, Reading.assigned]
    · simp [same]

/-- A leaf denotes its coefficients. -/
theorem IsUnitLeaf.denotes (leaf : a.IsUnitLeaf bound) (value : a.leafValue dim ρ = some x) :
    a.Denotes F ρ bound x := by
  -- The coefficients are signs, and natural degrees are defined for all numbers.
  rw [leafValue] at value
  split at value
  · rename_i inside
    cases value
    refine .of_read (.of_entries leaf.canonical (fun e member => ?_) fun e member => ?_) leaf.plain
      (fun e member p power => ?_) (funext (read_assigned ρ a))
    · obtain ⟨t, given, row⟩ := List.mem_flatMap.mp member
      obtain ⟨m, -, rfl⟩ := List.mem_map.mp row
      exact inside _ (List.mem_map_of_mem given)
    · rcases leaf.units e member with one | minus
      · exact one ▸ Dyadic.one 0
      · exact minus ▸ (Dyadic.one 0).neg
    · obtain ⟨whole, natural⟩ := leaf.degrees e member p power
      exact ⟨leaf.ids e member p power, Dyadic.zero_iff.mpr whole, .inl natural⟩
  · cases value

/-- Collation keeps the ids of its entries. -/
theorem hasIdsBelow_collate {entries : List Entry}
    (below : ∀ e ∈ entries, ∀ p ∈ e.monomial.powers, p.id < bound)
    (collated : collate entries = .ok a) : a.HasIdsBelow bound := by
  -- The powers of a collated entry are those of an entry that it came from.
  obtain ⟨ts, terms, done⟩ := Result.bind_eq_ok.mp collated
  cases done
  intro e inside
  obtain ⟨f, member, -, same⟩ := collateTerms_mem terms e inside
  rw [← same]
  exact below f member

/-- Fresh indeterminates have degree one. -/
theorem hasNaturalDegrees_fresh {id : Nat} {elements : List Nat} :
    (fresh id elements).HasNaturalDegrees := by
  -- Each entry is a single indeterminate.
  intro e inside p power
  rw [entries_fresh] at inside
  obtain ⟨k, small, rfl⟩ := List.mem_mapIdx.mp inside
  obtain rfl := List.mem_singleton.mp power
  exact ⟨rfl, by simp [Power.linear]⟩

/-- Ids below a bound lie below a greater one. -/
theorem HasIdsBelow.mono {bound' : Nat} (below : a.HasIdsBelow bound) (le : bound ≤ bound') :
    a.HasIdsBelow bound' := fun e inside p power => (below e inside p power).trans_le le

end Multivector

namespace EntityKind

/-- Powers of an entry that increase over ids below a bound. -/
def Ranges (bound : Nat) (e : Entry) : Prop :=
  Increasing e.monomial.powers ∧ ∀ p ∈ e.monomial.powers, p.id < bound

instance (powers : List Power) : Decidable (Increasing powers) :=
  inferInstanceAs (Decidable (List.Pairwise (· < ·) (powers.map (·.id))))

instance (bound : Nat) (e : Entry) : Decidable (Ranges bound e) := instDecidableAnd

/-- The entries of a polynomial that a kind of entities chooses for itself. -/
def chosen : EntityKind → List Entry
  | polynomial _ _ _ entries => entries
  | _ => []

/-- A kind of entities with one blade for each field, whose symbolic value is a polynomial over its
fields. -/
structure WellFormed (kind : EntityKind) : Prop where
  blades : kind.fields.length = kind.elements.length
  entries : ∀ e ∈ kind.chosen, Ranges kind.size e

instance (kind : EntityKind) : Decidable kind.WellFormed :=
  decidable_of_iff (kind.fields.length = kind.elements.length ∧ ∀ e ∈ kind.chosen, Ranges kind.size e)
    ⟨fun ⟨blades, entries⟩ => ⟨blades, entries⟩, fun h => ⟨h.blades, h.entries⟩⟩

variable {bound element id : Nat} {q : Rat}

/-- A constant entry has no ids. -/
theorem ranges_constant : Ranges bound (.of element q []) := ⟨.nil, by simp [Entry.of]⟩

/-- An entry with one power has one id. -/
theorem ranges_power {p : Power} (inside : p.id < bound) : Ranges bound (.of element q [p]) := by
  refine ⟨List.pairwise_singleton _ _, fun p' member => ?_⟩
  obtain rfl := List.mem_singleton.mp member
  exact inside

/-- One indeterminate for each blade. -/
theorem ranges_fields {elements : List Nat} (inside : id + elements.length ≤ bound) :
    ∀ e ∈ elements.mapIdx fun k element => Entry.of element 1 [Power.linear (id + k)],
      Ranges bound e := by
  intro e member
  -- The id of a blade is as far from the first one as its place.
  obtain ⟨k, small, rfl⟩ := List.mem_mapIdx.mp member
  exact ranges_power (lt_of_lt_of_le (Nat.add_lt_add_left small id) inside)

/-- An entry over the fields of an entity has their ids. -/
theorem Ranges.shift {size : Nat} {e : Entry} (ranges : Ranges size e) (id : Nat) :
    Ranges (id + size) (shift id e) := by
  -- Adding the first id keeps the order of the others.
  refine ⟨?_, fun p member => ?_⟩
  · simpa [Increasing, EntityKind.shift, Entry.of, List.pairwise_map] using ranges.1
  · obtain ⟨p, inside, rfl⟩ := List.mem_map.mp member
    exact Nat.add_lt_add_left (ranges.2 p inside) id

/-- The null vector of a point has an indeterminate for each coordinate. -/
theorem ranges_conformalEntries (inside : id + 3 ≤ bound) :
    ∀ e ∈ conformalEntries id, Ranges bound e := by
  intro e member
  -- The first entry is constant, and each coordinate occurs by itself and as a square.
  rcases List.mem_cons.mp member with rfl | member
  · exact ranges_constant
  · obtain ⟨row, given, member⟩ := List.mem_flatten.mp member
    obtain ⟨k, small, rfl⟩ := List.mem_mapIdx.mp given
    have coordinate : id + k < bound := by
      simp only [List.length_cons, List.length_nil] at small
      omega
    rcases List.mem_pair.mp member with rfl | rfl
    all_goals exact ranges_power coordinate

/-- A leaf collates entries over the ids of its fields. -/
theorem leaf_eq_collate {kind : EntityKind} (wellFormed : kind.WellFormed) (id : Nat) :
    ∃ entries, kind.leaf id = collate entries ∧ ∀ e ∈ entries, Ranges (id + kind.size) e := by
  -- Most kinds have one indeterminate for each blade, and the others are listed.
  cases kind with
  | projectivePoint =>
    refine ⟨_, rfl, fun e member => ?_⟩
    simp only [List.mem_cons, List.not_mem_nil, or_false] at member
    rcases member with rfl | rfl | rfl | rfl
    · exact ranges_constant
    all_goals exact ranges_power (by simp [size, fields, Power.linear])
  | conformalPoint => exact ⟨_, rfl, ranges_conformalEntries le_rfl⟩
  | sphere =>
    refine ⟨_, rfl, fun e member => ?_⟩
    rcases List.mem_append.mp member with member | member
    · exact ranges_conformalEntries (Nat.le_succ _) e member
    · obtain rfl := List.mem_singleton.mp member
      exact ranges_power (by simp [size, fields])
  | flatPoint =>
    refine ⟨_, rfl, fun e member => ?_⟩
    rcases List.mem_cons.mp member with rfl | member
    · exact ranges_constant
    · exact ranges_fields le_rfl e member
  | polynomial =>
    refine ⟨_, rfl, fun e member => ?_⟩
    obtain ⟨given, inside, rfl⟩ := List.mem_map.mp member
    exact (wellFormed.entries given inside).shift id
  | _ => exact ⟨_, rfl, ranges_fields (Nat.add_le_add_left (Nat.le_of_eq wellFormed.blades.symm) id)⟩

end EntityKind

namespace Planner

/-- The symbolic values of entities are canonical and plain, and have the ids of their fields. -/
theorem symbolsFrom_spec : ∀ {kinds : List EntityKind} {id : Nat} {symbols : List Multivector},
    (∀ kind ∈ kinds, kind.WellFormed) → symbolsFrom id kinds = .ok symbols →
      ∀ a ∈ symbols, a.Canonical ∧ a.Plain ∧ a.HasIdsBelow (id + inputSize kinds)
  | [], id, symbols, _, made, a, inside => by
    cases made
    simp at inside
  | kind :: rest, id, symbols, wellFormed, made, a, inside => by
    obtain ⟨first, leaf, later⟩ := Result.bind_eq_ok.mp made
    obtain ⟨others, below, done⟩ := Result.bind_eq_ok.mp later
    cases done
    rw [inputSize, ← Nat.add_assoc]
    -- The ids of the first entity lie before those of the others.
    rcases List.mem_cons.mp inside with rfl | inside
    · obtain ⟨entries, collated, each⟩ := EntityKind.leaf_eq_collate (wellFormed kind (by simp)) id
      rw [collated] at leaf
      have ids := Multivector.hasIdsBelow_collate (fun e member => (each e member).2) leaf
      exact ⟨collate_canonical (fun e member => (each e member).1) leaf, collate_plain leaf,
        ids.mono (Nat.le_add_right _ _)⟩
    · exact symbolsFrom_spec (fun k member => wellFormed k (List.mem_cons_of_mem _ member)) below a
        inside

end Planner

end Clifford
