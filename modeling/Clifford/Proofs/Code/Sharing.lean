import Clifford.Proofs.Code.References

/-! Counts of references: what a program uses is what its code refers to, and what is shared is stored
behind everything that it loads. -/

namespace Clifford

namespace Code

variable {stem : Code}

/-- A visit of operands adds nothing but what can be shared in them. -/
theorem mem_of_mem_referencesOf {head : Head} {operands : List Code}
    (each : ∀ code ∈ operands, ∀ divisor {seen}, stem ∈ references divisor code seen →
      stem ∈ seen ∨ stem ∈ candidates divisor code) :
    ∀ {position seen}, stem ∈ referencesOf head position operands seen →
      stem ∈ seen ∨ stem ∈ candidatesOf head position operands := by
  -- What is seen after an operand is what was seen before it or can be shared in it.
  induction operands with
  | nil => exact fun member => .inl member
  | cons code rest ih =>
    intro position seen member
    rw [candidatesOf, List.mem_append]
    rcases ih (fun c inside => each c (List.mem_cons_of_mem _ inside)) member with before | later
    · exact (each code (by simp) _ before).imp_right .inl
    · exact .inr (.inr later)

/-- A visit of code adds nothing but what can be shared in it. -/
theorem mem_of_mem_references (code : Code) : ∀ divisor {seen},
    stem ∈ references divisor code seen → stem ∈ seen ∨ stem ∈ candidates divisor code := by
  -- By induction on the tree, which adds its own stem and what is found in its operands.
  induction code using Code.induction with
  | node head scale operands ih =>
    intro divisor seen member
    rw [references] at member
    rw [candidates]
    by_cases shareable : (Code.node head scale operands).isCandidate divisor = true
    · rw [if_pos shareable] at member ⊢
      split at member
      · rcases List.mem_cons.mp member with rfl | known
        · simp
        · exact .inl known
      · rcases mem_of_mem_referencesOf ih member with known | below
        · rcases List.mem_cons.mp known with rfl | known
          · simp
          · exact .inl known
        · exact .inr (List.mem_append_left _ below)
    · rw [if_neg shareable] at member ⊢
      rw [List.append_nil]
      exact mem_of_mem_referencesOf ih member

/-- What can be shared in operands is reached from what they refer to directly. -/
theorem holds_of_frontierOf {P : Code → Prop} {head : Head} {operands : List Code}
    (each : ∀ code ∈ operands, ∀ divisor, (∀ s ∈ frontier divisor code, P s) →
      ∀ s ∈ candidates divisor code, P s) :
    ∀ position, (∀ s ∈ frontierOf head position operands, P s) →
      ∀ s ∈ candidatesOf head position operands, P s := by
  -- What can be shared in an operand is reached from the references of this operand.
  induction operands with
  | nil => simp [candidatesOf]
  | cons code rest ih =>
    intro position direct s member
    rw [frontierOf] at direct
    rcases List.mem_append.mp member with first | later
    · exact each code (by simp) _ (fun s inside => direct s (List.mem_append_left _ inside)) s first
    · exact ih (fun c inside => each c (List.mem_cons_of_mem _ inside)) _
        (fun s inside => direct s (List.mem_append_right _ inside)) s later

/-- A property that is handed down by references holds of all that can be shared in code, if it holds of
what the code refers to directly. -/
theorem holds_of_frontier {P : Code → Prop} (handed : ∀ c, P c → ∀ s ∈ frontierBelow c, P s)
    (code : Code) : ∀ divisor, (∀ s ∈ frontier divisor code, P s) →
      ∀ s ∈ candidates divisor code, P s := by
  -- By induction on the tree: what it refers to is its own stem, or what its operands refer to.
  induction code using Code.induction with
  | node head scale operands ih =>
    intro divisor direct s member
    rw [frontier] at direct
    rw [candidates] at member
    by_cases shareable : (Code.node head scale operands).isCandidate divisor = true
    · rw [if_pos shareable] at direct member
      have own : P (Code.node head 1 operands) := direct _ (by simp)
      rcases List.mem_append.mp member with below | root
      · exact holds_of_frontierOf ih 0 (handed _ own) s below
      · obtain rfl := List.mem_singleton.mp root
        exact own
    · rw [if_neg shareable] at direct member
      rw [List.append_nil] at member
      exact holds_of_frontierOf ih 0 direct s member

end Code

namespace Sharing

open Code

variable {roots : List Code} {stem : Code}

/-- A visit of several trees adds what they refer to directly, and what is owed by the stems seen
first. -/
theorem count_foldl_references (stem : Code) (roots : List Code) : ∀ seen,
    (roots.foldl (fun seen root => root.references false seen) seen).count stem + owed stem seen =
      seen.count stem + (roots.flatMap (frontier false)).count stem +
        owed stem (roots.foldl (fun seen root => root.references false seen) seen) := by
  -- The trees are visited in turn, each with what has been seen in those before it.
  induction roots with
  | nil => simp
  | cons root rest ih =>
    intro seen
    have first := Code.count_references stem root false seen
    have others := ih (root.references false seen)
    rw [List.foldl_cons, List.flatMap_cons, List.count_append]
    omega

/-- The references from several trees are what they refer to directly, and what is referred to below
every stem that is reached. -/
theorem count_references (stem : Code) (roots : List Code) : (references roots).count stem =
    (roots.flatMap (frontier false)).count stem + owed stem (references roots) := by
  have whole := count_foldl_references stem roots []
  simpa [references, owed] using whole

/-- A visit of several trees adds nothing but what can be shared in them. -/
theorem mem_of_mem_foldl_references {roots : List Code} : ∀ {seen},
    stem ∈ roots.foldl (fun seen root => root.references false seen) seen →
      stem ∈ seen ∨ ∃ root ∈ roots, stem ∈ candidates false root := by
  induction roots with
  | nil => exact fun member => .inl member
  | cons root rest ih =>
    intro seen member
    rcases ih member with before | ⟨r, inside, later⟩
    · exact (mem_of_mem_references root false before).imp_right fun first => ⟨root, by simp, first⟩
    · exact .inr ⟨r, List.mem_cons_of_mem _ inside, later⟩

/-- Only what can be shared is referred to. -/
theorem mem_classes_of_references (member : stem ∈ references roots) : stem ∈ classes roots :=
  mem_classes.mpr ((mem_of_mem_foldl_references member).resolve_left (by simp))

/-- Everything that can be shared is referred to. -/
theorem mem_references (member : stem ∈ classes roots) : stem ∈ references roots := by
  obtain ⟨root, given, inside⟩ := mem_classes.mp member
  refine holds_of_frontier (P := fun s => s ∈ references roots) (fun c reached s below => ?_) root
    false (fun s direct => ?_) stem inside
  · -- What is reached owes what it refers to.
    rw [← List.count_pos_iff, count_references]
    have part := Finset.single_le_sum (f := fun c => (frontierBelow c).count s)
      (fun _ _ => Nat.zero_le _) (List.mem_toFinset.mpr reached)
    have positive := List.count_pos_iff.mpr below
    rw [owed]
    omega
  · rw [← List.count_pos_iff, count_references]
    have positive := List.count_pos_iff.mpr (List.mem_flatMap.mpr ⟨root, given, direct⟩)
    omega

/-- First occurrences are distinct. -/
theorem nodup_eraseDups : ∀ stems : List Code, stems.eraseDups.Nodup
  | [] => .nil
  | stem :: rest => by
    -- The first stem is left out of all that comes behind it.
    rw [List.eraseDups_cons, List.nodup_cons]
    exact ⟨by simp, nodup_eraseDups _⟩
termination_by stems => stems.length
decreasing_by exact Nat.lt_succ_of_le (List.length_filter_le _ _)

/-- What is shared is shared once. -/
theorem nodup_hoisted (eliminate : Bool) (roots : List Code) : (hoisted eliminate roots).Nodup :=
  (nodup_eraseDups _).filter _

/-- What is not shared is referred to once at most, if common subexpressions are eliminated. -/
theorem count_le_one (outside : stem ∉ hoisted true roots) : (references roots).count stem ≤ 1 := by
  by_cases member : stem ∈ references roots
  · -- A stem that is referred to twice would be shared.
    by_contra many
    refine outside (List.mem_filter.mpr ⟨mem_classes_of_references member, ?_⟩)
    simp [Nat.not_le.mp many]
  · rw [List.count_eq_zero_of_not_mem member]
    exact Nat.zero_le 1

/-- The stems that a program uses: below those that are shared, and in its roots. -/
def allUses (roots : List Code) : List Code :=
  let shared := hoisted true roots
  shared.flatMap (usesBelow shared) ++ roots.flatMap (uses shared false)

/-- What is used below several stems is what they refer to directly, and what is referred to below those
of the uses that are computed in place. -/
theorem count_flatMap_usesBelow (shared stems : List Code) :
    (stems.flatMap (usesBelow shared)).count stem = referred stem stems +
      referred stem (unshared shared (stems.flatMap (usesBelow shared))) := by
  -- Both sides are sums over the stems.
  induction stems with
  | nil => simp [referred, unshared]
  | cons c rest ih =>
    rw [List.flatMap_cons, List.count_append, ih, count_usesBelow, unshared_append, referred_append]
    have split : referred stem (c :: rest) =
        (frontierBelow c).count stem + referred stem rest := by simp [referred]
    omega

/-- What is used in several trees is what they refer to directly, and what is referred to below those of
the uses that are computed in place. -/
theorem count_flatMap_uses (shared roots : List Code) :
    (roots.flatMap (uses shared false)).count stem = (roots.flatMap (frontier false)).count stem +
      referred stem (unshared shared (roots.flatMap (uses shared false))) := by
  -- Both sides are sums over the trees.
  induction roots with
  | nil => simp [referred, unshared]
  | cons root rest ih =>
    rw [List.flatMap_cons, List.flatMap_cons, List.count_append, List.count_append, ih, count_uses,
      unshared_append, referred_append]
    omega

/-- What a program uses is what its roots and its shared stems refer to directly, and what is referred to
below those of the uses that are computed in place. -/
theorem count_allUses (stem : Code) (roots : List Code) : (allUses roots).count stem =
    (roots.flatMap (frontier false)).count stem + referred stem (hoisted true roots) +
      referred stem (unshared (hoisted true roots) (allUses roots)) := by
  rw [allUses, List.count_append, count_flatMap_usesBelow, count_flatMap_uses, unshared_append,
    referred_append]
  omega

/-- What is owed by the stems that are reached is referred to below those that are shared, and below
those that are not, which are reached once. -/
theorem owed_references (stem : Code) (roots : List Code) : owed stem (references roots) =
    referred stem (hoisted true roots) +
      referred stem (unshared (hoisted true roots) (references roots)) := by
  let shared := hoisted true roots
  -- The stems that are reached are the shared ones, which are distinct, and others, which are reached
  -- once.
  have once : (unshared shared (references roots)).Nodup := by
    refine List.nodup_iff_count_le_one.mpr fun c => ?_
    rw [count_unshared]
    split
    · exact Nat.zero_le 1
    · rename_i outside
      exact count_le_one outside
  have apart : Disjoint shared.toFinset (unshared shared (references roots)).toFinset := by
    rw [Finset.disjoint_left]
    intro c inside outside
    simp only [List.mem_toFinset] at inside outside
    simp [unshared, inside] at outside
  have all : (references roots).toFinset =
      shared.toFinset ∪ (unshared shared (references roots)).toFinset := by
    ext c
    simp only [List.mem_toFinset, Finset.mem_union, unshared, List.mem_filter]
    by_cases inside : c ∈ shared
    · simp [inside, mem_references (mem_classes_of_hoisted inside)]
    · simp [inside]
  rw [owed, all, Finset.sum_union apart, List.sum_toFinset _ (nodup_hoisted _ _),
    List.sum_toFinset _ once]
  rfl

/-- With elimination of common subexpressions a stem is used as often as it is referred to. -/
theorem count_allUses_eq (stem : Code) (roots : List Code) :
    (allUses roots).count stem = (references roots).count stem := by
  -- Uses and references answer to the same direct references, which determine both.
  refine count_eq_of_referred (fun s => count_allUses s roots) (fun s => ?_) stem
  rw [count_references, owed_references, Nat.add_assoc]

/-- Everything that can be shared below a stem in a list stands before it. -/
def Postordered (stems : List Code) : Prop :=
  ∀ before stem after, stems = before ++ stem :: after →
    ∀ s ∈ candidatesOf stem.head 0 stem.operands, s ∈ before

/-- Lists in postorder are joined. -/
theorem Postordered.append {first second : List Code} (left : Postordered first)
    (right : Postordered second) : Postordered (first ++ second) := by
  intro before stem after split s inside
  -- The stem stands in the first list or in the second one.
  rcases List.append_eq_append_iff.mp split with ⟨middle, rfl, rest⟩ | ⟨middle, rfl, rest⟩
  · exact List.mem_append_right _ (right middle stem after rest s inside)
  · cases middle with
    | nil => exact absurd (right [] stem after rest.symm s inside) (by simp)
    | cons c middle =>
      obtain ⟨rfl, rfl⟩ := List.cons.inj rest
      exact left before stem middle rfl s inside

/-- A stem is listed in postorder behind everything that can be shared below it. -/
theorem Postordered.concat {first : List Code} (left : Postordered first) {root : Code}
    (below : ∀ s ∈ candidatesOf root.head 0 root.operands, s ∈ first) :
    Postordered (first ++ [root]) := by
  intro before stem after split s inside
  -- The stem is the new one at the end, or it stands in the list as before.
  rcases List.eq_nil_or_concat after with rfl | ⟨others, last, rfl⟩
  · obtain ⟨rfl, same⟩ := List.append_inj' split rfl
    obtain rfl := List.singleton_inj.mp same
    exact below s inside
  · obtain ⟨rfl, -⟩ := List.append_inj' (split.trans (by simp : _ = (before ++ stem :: others) ++ [last])) rfl
    exact left before stem others rfl s inside

/-- What can be shared in code is listed in postorder. -/
theorem postordered_candidates (code : Code) : ∀ divisor, Postordered (candidates divisor code) := by
  -- By induction on the tree: the operands come one after the other, and the root behind all of them.
  induction code using Code.induction with
  | node head scale operands ih =>
    have below : ∀ position, Postordered (candidatesOf head position operands) := by
      induction operands with
      | nil => exact fun _ before stem after split => by simp [candidatesOf] at split
      | cons code rest later =>
        exact fun position => (ih code (by simp) _).append
          (later (fun c inside => ih c (List.mem_cons_of_mem _ inside)) _)
    intro divisor
    rw [candidates]
    split
    · exact (below 0).concat fun s inside => inside
    · rw [List.append_nil]
      exact below 0

/-- A stem occurs for the first time behind the first occurrences of some stems before it. -/
theorem split_eraseDups {stem : Code} : ∀ {stems before after : List Code},
    stems.eraseDups = before ++ stem :: after →
      ∃ first later, stems = first ++ stem :: later ∧ ∀ s ∈ first, s ∈ before
  | [], before, after, split => by simp at split
  | c :: rest, before, after, split => by
    -- The first stem stays, and is left out of the rest.
    rw [List.eraseDups_cons] at split
    cases before with
    | nil =>
      obtain ⟨rfl, -⟩ := List.cons.inj split
      exact ⟨[], rest, rfl, by simp⟩
    | cons d before =>
      obtain ⟨rfl, others⟩ := List.cons.inj split
      obtain ⟨first, later, kept, inside⟩ := split_eraseDups others
      -- What has been left out in front of the stem is the first stem again.
      obtain ⟨first', later', rfl, rfl, tail⟩ := List.filter_eq_append_iff.mp kept
      obtain ⟨skipped, last, rfl, dropped, -, -⟩ := List.filter_eq_cons_iff.mp tail
      refine ⟨c :: (first' ++ skipped), last, by simp, fun s member => ?_⟩
      rcases List.mem_cons.mp member with rfl | member
      · exact List.mem_cons_self
      · by_cases same : s = c
        · exact same ▸ List.mem_cons_self
        · refine List.mem_cons_of_mem _ (inside s (List.mem_filter.mpr ⟨?_, by simpa using same⟩))
          rcases List.mem_append.mp member with before | skip
          · exact before
          · exact absurd (by simpa using same) (dropped s skip)
termination_by stems => stems.length
decreasing_by exact Nat.lt_succ_of_le (List.length_filter_le _ _)

/-- The stems that operands use can be shared in them. -/
theorem candidatesOf_of_usesOf {shared : List Code} {head : Head} {operands : List Code}
    (each : ∀ code ∈ operands, ∀ divisor, ∀ s ∈ uses shared divisor code,
      s ∈ candidates divisor code) :
    ∀ position, ∀ s ∈ usesOf shared head position operands, s ∈ candidatesOf head position operands := by
  -- Uses and candidates of operands are listed at the same positions.
  induction operands with
  | nil => simp [usesOf]
  | cons code rest ih =>
    intro position s used
    rcases List.mem_append.mp used with first | later
    · exact List.mem_append_left _ (each code (by simp) _ s first)
    · exact List.mem_append_right _
        (ih (fun c inside => each c (List.mem_cons_of_mem _ inside)) _ s later)

/-- The stems that code uses can be shared in it. -/
theorem candidates_of_uses (shared : List Code) (code : Code) : ∀ divisor,
    ∀ s ∈ uses shared divisor code, s ∈ candidates divisor code := by
  -- By induction on the tree: it uses its own stem where it can be shared, and what its operands use.
  induction code using Code.induction with
  | node head scale operands ih =>
    intro divisor s used
    rw [uses] at used
    rw [candidates]
    by_cases shareable : (Code.node head scale operands).isCandidate divisor = true
    · rw [if_pos shareable] at used ⊢
      rcases List.mem_append.mp used with below | root
      · split at below
        · simp at below
        · exact List.mem_append_left _ (candidatesOf_of_usesOf ih 0 s below)
      · exact List.mem_append_right _ root
    · rw [if_neg shareable] at used
      exact List.mem_append_left _ (candidatesOf_of_usesOf ih 0 s used)

/-- What can be shared in several trees is listed in postorder. -/
theorem postordered_flatMap : ∀ roots : List Code, Postordered (roots.flatMap (candidates false))
  | [] => fun before stem after split => by simp at split
  | root :: rest => (postordered_candidates root false).append (postordered_flatMap rest)

/-- What is shared is stored behind all that it loads. -/
theorem ordered_hoisted (eliminate : Bool) (roots : List Code) :
    Trace.Ordered (hoisted eliminate roots) := by
  intro before stem after split s used inside
  -- The part of the classes in front of the stem holds all that is listed before it.
  obtain ⟨first, later, all, rfl, rest⟩ := List.filter_eq_append_iff.mp split
  obtain ⟨skipped, last, rfl, dropped, -, -⟩ := List.filter_eq_cons_iff.mp rest
  rw [← List.append_assoc] at all
  obtain ⟨front, behind, whole, known⟩ := split_eraseDups all
  have below := candidatesOf_of_usesOf (fun c _ => candidates_of_uses _ c) 0 s used
  have kept := (List.mem_filter.mp inside).2
  rcases List.mem_append.mp (known s (postordered_flatMap roots front stem behind whole s below)) with
    before | skip
  · exact List.mem_filter.mpr ⟨before, kept⟩
  · exact absurd kept (dropped s skip)

end Sharing

end Clifford
