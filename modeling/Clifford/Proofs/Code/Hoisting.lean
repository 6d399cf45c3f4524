import Clifford.Proofs.Code.Value

/-! Hoisting: stems that are computed into temporaries have coefficients like the trees that they come
from, and every divisor that can be shared is one of them. -/

namespace Clifford

namespace Code

/-- A property of the stems of a tree and of all trees below it. -/
inductive Every (P : Code → Prop) : Code → Prop
  | node {head : Head} {scale : Rat} {operands : List Code} (root : P (node head 1 operands))
      (below : ∀ code ∈ operands, Every P code) : Every P (node head scale operands)

/-- A divisor at the root of code is shared if it can be. -/
def Covered (shared : List Code) (code : Code) : Prop :=
  ∀ dividend divisor, code.head = .binary .divide → code.operands = [dividend, divisor] →
    divisor.isCandidate true = true → divisor.stem ∈ shared

variable {P : Code → Prop}

/-- A property of a tree holds of its stem. -/
theorem Every.stem {code : Code} (every : Every P code) : P code.stem := by
  obtain ⟨root, -⟩ := every
  exact root

/-- A property holds everywhere in a tree if it holds of its stem and everywhere in its operands. -/
theorem every_node {head : Head} {scale : Rat} {operands : List Code} :
    Every P (node head scale operands) ↔
      P (node head 1 operands) ∧ ∀ code ∈ operands, Every P code :=
  ⟨fun ⟨root, below⟩ => ⟨root, below⟩, fun ⟨root, below⟩ => .node root below⟩

/-- What can be shared among operands can be shared in one of them. -/
theorem mem_candidatesOf {head : Head} {operands : List Code} {position : Nat} {stem : Code} :
    stem ∈ candidatesOf head position operands ↔
      ∃ i code, operands[i]? = some code ∧ stem ∈ candidates (head.dividesBy (position + i)) code := by
  -- The position of the first operand moves on with the operands.
  induction operands generalizing position with
  | nil => simp [candidatesOf]
  | cons code rest ih =>
    rw [candidatesOf, List.mem_append, ih]
    constructor
    · rintro (first | ⟨i, c, later, member⟩)
      · exact ⟨0, code, rfl, first⟩
      · exact ⟨i + 1, c, later, by rwa [Nat.add_right_comm] at member⟩
    · rintro ⟨_ | i, c, found, member⟩
      · obtain rfl := Option.some.inj found
        exact .inl member
      · exact .inr ⟨i, c, found, by rwa [Nat.add_right_comm]⟩

/-- What can be shared in a tree comes from an operand or is the stem of the tree. -/
theorem mem_candidates {divisor : Bool} {head : Head} {scale : Rat} {operands : List Code}
    {stem : Code} : stem ∈ candidates divisor (node head scale operands) ↔
      (∃ i code, operands[i]? = some code ∧ stem ∈ candidates (head.dividesBy i) code) ∨
        (node head scale operands).isCandidate divisor = true ∧ stem = node head 1 operands := by
  -- The root comes behind all operands, if it can be shared at all.
  rw [candidates, List.mem_append, mem_candidatesOf]
  refine or_congr (by simp) ?_
  split
  · rename_i shareable
    simp [shareable]
  · rename_i unshareable
    simp [unshareable]

/-- The stem of a tree that can be shared is among those that can be. -/
theorem stem_mem_candidates {divisor : Bool} {code : Code}
    (shareable : code.isCandidate divisor = true) : code.stem ∈ candidates divisor code := by
  obtain ⟨head, scale, operands⟩ := code
  exact mem_candidates.mpr (.inr ⟨shareable, rfl⟩)

/-- What can be shared in a tree is its own stem. -/
theorem stem_of_candidate {stem : Code} (code : Code) : ∀ divisor, stem ∈ candidates divisor code →
    stem.stem = stem := by
  -- By induction on the tree, since the stems come from its operands or from its root.
  induction code using Code.induction with
  | node head scale operands ih =>
    intro divisor member
    rcases mem_candidates.mp member with ⟨i, code, found, member⟩ | ⟨-, rfl⟩
    · exact ih code (List.mem_of_getElem? found) _ member
    · rfl

/-- A property of a tree holds of everything that can be shared in it. -/
theorem Every.of_candidate {stem : Code} (code : Code) : ∀ divisor, Every P code →
    stem ∈ candidates divisor code → Every P stem := by
  -- By induction on the tree, since the stems come from its operands or from its root.
  induction code using Code.induction with
  | node head scale operands ih =>
    rintro divisor ⟨root, below⟩ member
    rcases mem_candidates.mp member with ⟨i, code, found, member⟩ | ⟨-, rfl⟩
    · have inside := List.mem_of_getElem? found
      exact ih code inside _ (below code inside) member
    · exact .node root below

/-- A property holds everywhere in a tree, if it holds of all stems whose candidates have a property that
those of the tree have. -/
theorem every_of_candidates {q : Code → Prop}
    (root : ∀ {divisor head scale operands},
      (∀ stem ∈ candidates divisor (node head scale operands), q stem) → P (node head 1 operands))
    (code : Code) : ∀ divisor, (∀ stem ∈ candidates divisor code, q stem) → Every P code := by
  -- By induction on the tree, as what is known of its candidates is known of those of its operands.
  induction code using Code.induction with
  | node head scale operands ih =>
    intro divisor all
    refine .node (root all) fun code inside => ?_
    -- The candidates of an operand, at its position, are candidates of the tree.
    obtain ⟨i, found⟩ := List.mem_iff_getElem?.mp inside
    exact ih code inside _ fun stem member =>
      all stem (mem_candidates.mpr (.inl ⟨i, code, found, member⟩))

/-- Everything in a tree with coefficients has coefficients. -/
theorem every_value {A : Algebra} {F : Functions A.dim} {leaves : Nat → Option Dense}
    (code : Code) : ∀ {x}, code.value A F leaves = some x →
      Every (fun stem => ∃ y, stem.value A F leaves = some y) code := by
  -- A tree only has coefficients if its stem and all its operands have.
  induction code using Code.induction with
  | node head scale operands ih =>
    intro x value
    obtain ⟨-, y, stem, -⟩ := value_stem.mp value
    obtain ⟨-, -, xs, -, given, -, -⟩ := value_node.mp value
    refine .node ⟨y, stem⟩ fun code inside => ?_
    obtain ⟨i, small, rfl⟩ := List.getElem_of_mem inside
    have each := values_eq_some.mp given
    exact ih _ inside (each.get small (each.length_eq ▸ small))

end Code

namespace Sharing

open Code

variable {eliminate : Bool} {roots : List Code}

/-- What can be shared in several trees can be shared in one of them. -/
theorem mem_classes {stem : Code} :
    stem ∈ classes roots ↔ ∃ root ∈ roots, stem ∈ candidates false root := by
  rw [classes, List.mem_eraseDups, List.mem_flatMap]

/-- Only what can be shared is hoisted. -/
theorem mem_classes_of_hoisted {stem : Code} (member : stem ∈ hoisted eliminate roots) :
    stem ∈ classes roots := List.mem_of_mem_filter member

/-- What is hoisted is its own stem. -/
theorem stem_of_hoisted {stem : Code} (member : stem ∈ hoisted eliminate roots) :
    stem.stem = stem := by
  obtain ⟨root, -, inside⟩ := mem_classes.mp (mem_classes_of_hoisted member)
  exact stem_of_candidate root false inside

/-- A divisor that can be shared is hoisted with its quotient. -/
theorem divisor_mem_hoisted {dividend divisor : Code}
    (quotient : node (.binary .divide) 1 [dividend, divisor] ∈ classes roots)
    (shareable : divisor.isCandidate true = true) (member : divisor.stem ∈ classes roots) :
    divisor.stem ∈ hoisted eliminate roots := by
  -- The quotient requires it.
  have required : divisor.stem ∈ (classes roots).flatMap requirements := by
    refine List.mem_flatMap.mpr ⟨_, quotient, ?_⟩
    simp [requirements, isolated, shareable]
  simp only [hoisted, List.mem_filter]
  exact ⟨member, by simp [required]⟩

/-- All divisors in a tree are covered by what is hoisted, if everything in it can be. -/
theorem every_covered (code : Code) : ∀ divisor, (∀ stem ∈ candidates divisor code,
    stem ∈ classes roots) → Every (Covered (hoisted eliminate roots)) code := by
  refine every_of_candidates (fun {divisor head scale operands} known => ?_) code
  rintro l r division arguments shareable
  obtain rfl : head = .binary .divide := division
  obtain rfl : operands = [l, r] := arguments
  have quotient := known _ (mem_candidates.mpr (.inr ⟨rfl, rfl⟩))
  -- The divisor stands at the position that is divided by.
  have position := known _ (mem_candidates.mpr (.inl ⟨1, r, rfl, stem_mem_candidates shareable⟩))
  exact divisor_mem_hoisted quotient shareable position

/-- All divisors in the trees of a program are covered by what is hoisted. -/
theorem covered_of_root {root : Code} (member : root ∈ roots) :
    Every (Covered (hoisted eliminate roots)) root :=
  every_covered root false fun _ inside => mem_classes.mpr ⟨root, member, inside⟩

/-- What holds of the trees of a program holds of what is hoisted. -/
theorem every_of_hoisted {P : Code → Prop} (every : ∀ root ∈ roots, Every P root) {stem : Code}
    (member : stem ∈ hoisted eliminate roots) : Every P stem := by
  -- What is hoisted is a candidate in some root, where the property holds everywhere.
  obtain ⟨root, given, inside⟩ := mem_classes.mp (mem_classes_of_hoisted member)
  exact Every.of_candidate root false (every root given) inside

end Sharing

end Clifford
