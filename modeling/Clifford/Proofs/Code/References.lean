import Clifford.Proofs.Code.Hoisting
import Clifford.Proofs.Code.Trace

/-! References: the stems that a program loads or computes in place are those that are referred to when
every stem is looked into once. -/

namespace Clifford

namespace Code

mutual

/-- The stems that code refers to directly: its own, or those of its operands where it cannot be
shared. -/
def frontier (divisor : Bool) : Code → List Code
  | node head scale operands =>
    if (node head scale operands).isCandidate divisor then [node head 1 operands]
    else frontierOf head 0 operands

/-- The stems that operands from a position on refer to directly. -/
def frontierOf (head : Head) (position : Nat) : List Code → List Code
  | [] => []
  | code :: rest => frontier (head.dividesBy position) code ++ frontierOf head (position + 1) rest

end

/-- The stems that the operands of code refer to directly. -/
def frontierBelow (code : Code) : List Code := frontierOf code.head 0 code.operands

/-- How often a stem is referred to directly below some others. -/
def referred (stem : Code) (stems : List Code) : Nat :=
  (stems.map fun c => (frontierBelow c).count stem).sum

/-- The stems that are used and not shared. -/
def unshared (shared stems : List Code) : List Code := stems.filter fun c => c ∉ shared

variable {shared : List Code} (stem : Code)

theorem referred_append (first second : List Code) :
    referred stem (first ++ second) = referred stem first + referred stem second := by
  simp [referred]

theorem unshared_append (first second : List Code) :
    unshared shared (first ++ second) = unshared shared first ++ unshared shared second :=
  List.filter_append _ _

/-- The uses of operands are what they refer to directly, and what is referred to below those of them
that are computed in place. -/
theorem count_usesOf (head : Head) {operands : List Code}
    (each : ∀ code ∈ operands, ∀ divisor, (uses shared divisor code).count stem =
      (frontier divisor code).count stem +
        referred stem (unshared shared (uses shared divisor code))) :
    ∀ position, (usesOf shared head position operands).count stem =
      (frontierOf head position operands).count stem +
        referred stem (unshared shared (usesOf shared head position operands)) := by
  -- Both sides are sums over the operands, each at its own position.
  induction operands with
  | nil => simp [usesOf, frontierOf, unshared, referred]
  | cons code rest ih =>
    intro position
    have first := each code (by simp) (head.dividesBy position)
    have others := ih (fun c inside => each c (List.mem_cons_of_mem _ inside)) (position + 1)
    rw [usesOf, frontierOf, List.count_append, List.count_append, first, others, unshared_append,
      referred_append]
    omega

/-- The uses of code are what it refers to directly, and what is referred to below those of them that
are computed in place. -/
theorem count_uses (code : Code) : ∀ divisor, (uses shared divisor code).count stem =
    (frontier divisor code).count stem +
      referred stem (unshared shared (uses shared divisor code)) := by
  -- By induction on the tree, whose operands matter unless the tree is loaded.
  induction code using Code.induction with
  | node head scale operands ih =>
    intro divisor
    have below := count_usesOf stem head ih 0
    rw [uses, frontier]
    by_cases shareable : (Code.node head scale operands).isCandidate divisor = true
    · rw [if_pos shareable, if_pos shareable]
      by_cases inside : Code.node head 1 operands ∈ shared
      · -- A stem that is loaded leads to nothing below it.
        simp [inside, unshared, referred]
      · -- A stem that is computed in place refers to what its operands refer to.
        have own : unshared shared [Code.node head 1 operands] = [Code.node head 1 operands] := by
          simp [unshared, inside]
        have refers : referred stem [Code.node head 1 operands] =
            (frontierOf head 0 operands).count stem := by
          simp [referred, frontierBelow, Code.head, Code.operands]
        rw [if_neg inside, List.count_append, below, unshared_append, referred_append, own, refers]
        omega
    · rw [if_neg shareable, if_neg shareable]
      exact below

/-- The uses below a stem are what it refers to, and what is referred to below those of them that are
computed in place. -/
theorem count_usesBelow (code : Code) : (usesBelow shared code).count stem =
    (frontierBelow code).count stem + referred stem (unshared shared (usesBelow shared code)) :=
  count_usesOf stem code.head (fun c _ => count_uses stem c) 0

/-- How often a stem is referred to below some others, each of them counted once. -/
def owed (stems : List Code) : Nat := ∑ c ∈ stems.toFinset, (frontierBelow c).count stem

/-- A stem that has been seen owes nothing more. -/
theorem owed_cons_of_mem {c : Code} {seen : List Code} (member : c ∈ seen) :
    owed stem (c :: seen) = owed stem seen := by
  -- The set of stems stays the same.
  rw [owed, List.toFinset_cons, Finset.insert_eq_self.mpr (List.mem_toFinset.mpr member), owed]

/-- A stem that has not been seen owes what it refers to. -/
theorem owed_cons_of_not_mem {c : Code} {seen : List Code} (new : c ∉ seen) :
    owed stem (c :: seen) = (frontierBelow c).count stem + owed stem seen := by
  -- The set of stems has one element more.
  rw [owed, List.toFinset_cons, Finset.sum_insert (mt List.mem_toFinset.mp new), owed]

/-- A visit of operands adds what they refer to directly and what is owed by the stems seen first. -/
theorem count_referencesOf (head : Head) {operands : List Code}
    (each : ∀ code ∈ operands, ∀ divisor seen, (references divisor code seen).count stem +
      owed stem seen = seen.count stem + (frontier divisor code).count stem +
        owed stem (references divisor code seen)) :
    ∀ position seen, (referencesOf head position operands seen).count stem + owed stem seen =
      seen.count stem + (frontierOf head position operands).count stem +
        owed stem (referencesOf head position operands seen) := by
  -- Each operand is visited with what has been seen in those before it.
  induction operands with
  | nil => simp [referencesOf, frontierOf]
  | cons code rest ih =>
    intro position seen
    have first := each code (by simp) (head.dividesBy position) seen
    have others := ih (fun c inside => each c (List.mem_cons_of_mem _ inside)) (position + 1)
      (references (head.dividesBy position) code seen)
    rw [referencesOf, frontierOf, List.count_append]
    omega

/-- A visit of code adds what it refers to directly and what is owed by the stems seen first. -/
theorem count_references (code : Code) : ∀ divisor seen,
    (references divisor code seen).count stem + owed stem seen =
      seen.count stem + (frontier divisor code).count stem +
        owed stem (references divisor code seen) := by
  -- By induction on the tree: a stem is looked into when it is seen for the first time.
  induction code using Code.induction with
  | node head scale operands ih =>
    intro divisor seen
    have below := count_referencesOf stem head ih 0
    rw [references, frontier]
    by_cases shareable : (Code.node head scale operands).isCandidate divisor = true
    · rw [if_pos shareable, if_pos shareable]
      by_cases known : Code.node head 1 operands ∈ seen
      · -- A stem that has been seen is counted, and nothing below it.
        rw [if_pos (List.contains_iff_mem.mpr known), owed_cons_of_mem stem known, List.count_cons,
          List.count_singleton]
      · -- A new stem is counted, and starts to owe what its operands refer to.
        rw [if_neg (mt List.contains_iff_mem.mp known)]
        have visit := below (Code.node head 1 operands :: seen)
        rw [owed_cons_of_not_mem stem known, List.count_cons] at visit
        rw [List.count_singleton]
        simp only [frontierBelow, Code.head, Code.operands] at visit
        omega
    · rw [if_neg shareable, if_neg shareable]
      exact below seen

variable {stem}

/-- What operands refer to directly is what one of them refers to. -/
theorem mem_frontierOf {head : Head} {operands : List Code} {position : Nat}
    (member : stem ∈ frontierOf head position operands) :
    ∃ code ∈ operands, ∃ divisor, stem ∈ frontier divisor code := by
  -- The references of operands are listed one operand after the other.
  induction operands generalizing position with
  | nil => simp [frontierOf] at member
  | cons code rest ih =>
    rcases List.mem_append.mp member with first | later
    · exact ⟨code, by simp, _, first⟩
    · obtain ⟨c, inside, divisor, given⟩ := ih later
      exact ⟨c, List.mem_cons_of_mem _ inside, divisor, given⟩

/-- An operand has fewer instructions than the code that it belongs to. -/
theorem length_instructions_lt {head : Head} {scale : Rat} {operands : List Code} {code : Code}
    (inside : code ∈ operands) :
    code.instructions.length < (node head scale operands).instructions.length := by
  -- The instructions of an operand are among those of the tree, which has one of its own besides.
  have listed : code.instructions ∈ operandInstructions operands := by
    induction operands with
    | nil => simp at inside
    | cons c rest ih =>
      rcases List.mem_cons.mp inside with rfl | later
      · exact List.mem_cons_self
      · exact List.mem_cons_of_mem _ (ih later)
  obtain ⟨before, after, split⟩ := List.append_of_mem listed
  rw [instructions, List.length_append, split, joinOperands, List.flatMap_append,
    List.flatMap_cons]
  cases head.marksOperands
  all_goals simp
  all_goals omega

/-- What code refers to directly has no more instructions than the code. -/
theorem length_le_of_mem_frontier (code : Code) : ∀ divisor, stem ∈ frontier divisor code →
    stem.instructions.length ≤ code.instructions.length := by
  -- By induction on the tree, since a reference goes to the tree itself or into an operand.
  induction code using Code.induction with
  | node head scale operands ih =>
    intro divisor member
    rw [frontier] at member
    split at member
    · obtain rfl := List.mem_singleton.mp member
      simp [instructions]
    · obtain ⟨c, inside, divisor, given⟩ := mem_frontierOf member
      exact (ih c inside divisor given).trans (length_instructions_lt inside).le

/-- What is referred to below a stem has fewer instructions. -/
theorem length_lt_of_mem_frontierBelow {code : Code} (member : stem ∈ frontierBelow code) :
    stem.instructions.length < code.instructions.length := by
  -- It goes to an operand or below one, and operands are shorter.
  obtain ⟨head, scale, operands⟩ := code
  obtain ⟨c, inside, divisor, given⟩ := mem_frontierOf member
  exact (length_le_of_mem_frontier c divisor given).trans_lt (length_instructions_lt inside)

/-- How often a stem that is not shared occurs. -/
theorem count_unshared (stems : List Code) :
    (unshared shared stems).count stem = if stem ∈ shared then 0 else stems.count stem := by
  split
  · rename_i inside
    exact List.count_eq_zero_of_not_mem fun member => by simp [unshared, inside] at member
  · rename_i outside
    exact List.count_filter (by simpa using outside)

/-- References below some stems are counted stem by stem. -/
theorem referred_eq_sum {stems : List Code} {all : Finset Code} (covered : stems.toFinset ⊆ all) :
    referred stem stems = ∑ c ∈ all, stems.count c * (frontierBelow c).count stem := by
  -- Stems that do not occur refer to nothing, so that more of them may be counted.
  rw [referred, Finset.sum_list_map_count]
  simp only [smul_eq_mul]
  refine Finset.sum_subset covered fun c _ outside => ?_
  rw [List.count_eq_zero_of_not_mem (mt List.mem_toFinset.mpr outside), zero_mul]

variable {direct : Code → Nat} {us rs : List Code}

/-- A stem occurs as often in one list as in the other, if all that refers to it does. -/
theorem count_eq_of_parents (uses : us.count stem = direct stem + referred stem (unshared shared us))
    (refers : rs.count stem = direct stem + referred stem (unshared shared rs))
    (parents : ∀ c, stem ∈ frontierBelow c → us.count c = rs.count c) :
    us.count stem = rs.count stem := by
  let all := (unshared shared us).toFinset ∪ (unshared shared rs).toFinset
  rw [uses, refers, @referred_eq_sum stem _ all Finset.subset_union_left,
    @referred_eq_sum stem _ all Finset.subset_union_right]
  congr 1
  -- Only stems that refer to this one count, and these occur equally often in both lists.
  refine Finset.sum_congr rfl fun c _ => ?_
  by_cases member : stem ∈ frontierBelow c
  · rw [count_unshared, count_unshared, parents c member]
  · rw [List.count_eq_zero_of_not_mem member, mul_zero, mul_zero]

/-- Stems that are referred to directly, or below one of them that is not shared, are determined by
the direct references. -/
theorem count_eq_of_referred
    (uses : ∀ s, us.count s = direct s + referred s (unshared shared us))
    (refers : ∀ s, rs.count s = direct s + referred s (unshared shared rs)) (stem : Code) :
    us.count stem = rs.count stem := by
  by_contra differ
  -- Among the stems that differ, the longest has a longer one that refers to it.
  let all := (us ++ rs).toFinset.filter fun s => us.count s ≠ rs.count s
  have mem_all {s : Code} (differ : us.count s ≠ rs.count s) : s ∈ all := by
    refine Finset.mem_filter.mpr ⟨?_, differ⟩
    rw [List.mem_toFinset, List.mem_append, ← not_not (a := _ ∨ _), not_or]
    rintro ⟨left, right⟩
    exact differ (by rw [List.count_eq_zero_of_not_mem left, List.count_eq_zero_of_not_mem right])
  obtain ⟨s, inside, longest⟩ :=
    Finset.exists_max_image all (fun s => s.instructions.length) ⟨stem, mem_all differ⟩
  refine (Finset.mem_filter.mp inside).2 (count_eq_of_parents (uses s) (refers s) fun c parent => ?_)
  by_contra differ
  exact absurd (longest c (mem_all differ)) (Nat.not_le.mpr (length_lt_of_mem_frontierBelow parent))

end Code

end Clifford
