import Clifford.Proofs.Code.Sharing

/-! Completeness of sharing: with elimination of common subexpressions every operator of the lowered
code is computed once, and what is shared without need is loaded twice at least. -/

namespace Clifford

namespace Code

variable {shared : List Code} {stem : Code} {index : Nat}

/-- How often instructions load a temporary. -/
def loadCount (index : Nat) (is : List Instruction) : Nat :=
  is.countP fun i => i.action = .load index

theorem loadCount_append (is js : List Instruction) :
    loadCount index (is ++ js) = loadCount index is + loadCount index js := List.countP_append

/-- Operands load a temporary as often as they use its stem. -/
theorem loadCount_operands (marked : Bool) (head : Head) {operands : List Code}
    (each : ∀ code ∈ operands, ∀ divisor,
      loadCount index (emit shared divisor code) = (uses shared divisor code).count stem) :
    ∀ position, loadCount index (joinOperands marked (emitOperands shared head position operands)) =
      (usesOf shared head position operands).count stem := by
  -- An operand is counted at its own position, and its mark counts nothing.
  induction operands with
  | nil => simp [emitOperands, joinOperands, usesOf, loadCount]
  | cons code rest ih =>
    intro position
    have later := ih (fun c inside => each c (List.mem_cons_of_mem _ inside)) (position + 1)
    have first := each code (by simp) (head.dividesBy position)
    rw [emitOperands, joinOperands, List.flatMap_cons, ← joinOperands, loadCount_append, later, usesOf,
      List.count_append, ← first]
    cases marked
    · rfl
    · -- A mark is no load.
      rw [if_pos rfl, loadCount, List.countP_cons_of_neg (by simp [Instruction.operand])]
      rfl

/-- A whole tree loads a temporary as often as its operands use the stem. -/
theorem loadCount_emitWhole {code : Code} (each : ∀ c ∈ code.operands, ∀ divisor,
      loadCount index (emit shared divisor c) = (uses shared divisor c).count stem) :
    loadCount index (emitWhole shared code) = (usesBelow shared code).count stem := by
  -- The operation at the root is no load.
  rw [emitWhole, loadCount_append, loadCount_operands _ _ each]
  simp [loadCount, instruction, usesBelow]

/-- The emission of code loads a temporary as often as the code uses its stem. -/
theorem loadCount_emit (nodup : shared.Nodup) (holds : shared[index]? = some stem) (code : Code) :
    ∀ divisor, loadCount index (emit shared divisor code) = (uses shared divisor code).count stem := by
  induction code using Code.induction with
  | node head scale operands ih =>
    intro divisor
    have whole := @loadCount_emitWhole shared stem index (.node head scale operands) ih
    rw [emit_eq]
    cases emitted shared divisor (.node head scale operands) with
    | @load other found inside used =>
      -- Stems that are shared once are loaded from one temporary.
      obtain ⟨bound, own⟩ := List.getElem?_eq_some_iff.mp (stem_of_loaded found)
      obtain ⟨bound', rfl⟩ := List.getElem?_eq_some_iff.mp holds
      have alike : other = index ↔ (Code.node head scale operands).stem = shared[index] := by
        rw [← own, nodup.getElem_inj_iff]
      rw [found, used, List.count_singleton, loadCount, List.countP_singleton]
      simp [alike]
    | inPlace absent outside used =>
      -- What is computed in place is not the stem that a temporary holds.
      have other : (Code.node head scale operands).stem ≠ stem := fun same =>
        outside (same ▸ List.mem_of_getElem? holds)
      rw [absent, used, List.count_append, List.count_singleton, if_neg (by simpa using other)]
      exact whole
    | plain absent _ used =>
      rw [absent, used]
      exact whole

/-- The temporaries load a temporary as often as the shared stems use its stem. -/
theorem loadCount_temporaries (nodup : shared.Nodup) (holds : shared[index]? = some stem)
    (stems : List Code) : loadCount index (stems.flatMap (emitTemporary shared)) =
      (stems.flatMap (usesBelow shared)).count stem := by
  -- The store behind a temporary loads nothing.
  induction stems with
  | nil => rfl
  | cons c rest ih =>
    have store : loadCount index [Instruction.store] = 0 := by simp [loadCount, Instruction.store]
    rw [List.flatMap_cons, List.flatMap_cons, loadCount_append, List.count_append, ih,
      emitTemporary_eq, loadCount_append, store,
      loadCount_emitWhole fun c _ => loadCount_emit nodup holds c, Nat.add_zero]

/-- The outputs load a temporary as often as the roots use its stem. -/
theorem loadCount_outputs (nodup : shared.Nodup) (holds : shared[index]? = some stem)
    (roots : List Code) : loadCount index (roots.flatMap (emit shared false)) =
      (roots.flatMap (uses shared false)).count stem := by
  -- The roots are emitted one after the other.
  induction roots with
  | nil => rfl
  | cons root rest ih =>
    rw [List.flatMap_cons, List.flatMap_cons, loadCount_append, List.count_append, ih,
      loadCount_emit nodup holds]

/-- A part of code is the code itself or a part of one of its operands. -/
inductive Within (part : Code) : Code → Prop
  | root : Within part part
  | operand {head : Head} {scale : Rat} {operands : List Code} {code : Code}
      (inside : code ∈ operands) (within : Within part code) :
      Within part (node head scale operands)

/-- The stem of an operator in code can be shared. -/
theorem Within.candidate {part code : Code} (within : part.Within code)
    (operator : part.head.isOperator = true) : ∀ divisor, part.stem ∈ candidates divisor code := by
  -- Going up from the part, each tree passes on what can be shared in its operand.
  induction within with
  | root => exact fun divisor => stem_mem_candidates (by simp [isCandidate, operator])
  | operand inside _ ih =>
    intro divisor
    obtain ⟨i, found⟩ := List.mem_iff_getElem?.mp inside
    exact mem_candidates.mpr (.inl ⟨i, _, found, ih _⟩)

/-- What can be shared in code is the stem of a part of it. -/
theorem within_of_candidate (code : Code) : ∀ divisor, stem ∈ candidates divisor code →
    ∃ part : Code, part.Within code ∧ part.stem = stem := by
  -- By induction on the tree, since the stems come from its operands or from its root.
  induction code using Code.induction with
  | node head scale operands ih =>
    intro divisor member
    rcases mem_candidates.mp member with ⟨i, code, found, inside⟩ | ⟨-, rfl⟩
    · have given := List.mem_of_getElem? found
      obtain ⟨part, within, same⟩ := ih code given _ inside
      exact ⟨part, .operand given within, same⟩
    · exact ⟨_, .root, rfl⟩

end Code

/-- What can be shared in well-formed trees is well-formed. -/
theorem Sharing.wellFormed_of_classes {roots : List Code}
    (wellFormed : ∀ root ∈ roots, root.WellFormed) {stem : Code} (known : stem ∈ classes roots) :
    stem.WellFormed := by
  -- The stem is that of a part of a root, which is well-formed as all parts are.
  obtain ⟨root, given, candidate⟩ := mem_classes.mp known
  obtain ⟨part, within, rfl⟩ := Code.within_of_candidate root false candidate
  have whole := wellFormed root given
  clear candidate known given
  have part_wellFormed : part.WellFormed := by
    induction within with
    | root => exact whole
    | operand inside _ ih => exact ih (whole.parts _ inside)
  exact part_wellFormed.withScale

/-- Whether an operation is computed on its own: a quotient or a transcendental function. -/
def Head.standsAlone : Head → Bool
  | .binary .divide => true
  | .unary op => op.isTranscendental
  | _ => false

/-- A stem that is needed by itself: a quotient or a transcendental function in one of the roots, or its
last operand, which is the divisor or the argument. -/
def Code.Required (roots : List Code) (stem : Code) : Prop :=
  ∃ root ∈ roots, ∃ part : Code, part.Within root ∧ part.head.standsAlone = true ∧
    (part.stem = stem ∨ ∃ operand ∈ part.operands.getLast?, operand.stem = stem)

namespace Sharing

open Code

variable {roots : List Code} {stem : Code}

/-- What a tree requires is its own stem or that of its last operand, if it stands alone. -/
theorem eq_stem_of_requirements {code : Code} (member : stem ∈ requirements code) :
    code.head.standsAlone = true ∧
      (code.stem = stem ∨ ∃ operand ∈ code.operands.getLast?, operand.stem = stem) := by
  -- Only a quotient and a transcendental function require anything.
  unfold requirements at member
  split at member
  · rename_i scale dividend divisor
    refine ⟨rfl, ?_⟩
    rcases List.mem_cons.mp member with rfl | isolated
    · exact .inl rfl
    · rw [Code.isolated] at isolated
      split at isolated
      · exact .inr ⟨divisor, rfl, (List.mem_singleton.mp isolated).symm⟩
      · simp at isolated
  · rename_i op scale arg
    split at member
    · rename_i transcendental
      refine ⟨transcendental, ?_⟩
      rcases List.mem_cons.mp member with rfl | isolated
      · exact .inl rfl
      · rw [Code.isolated] at isolated
        split at isolated
        · exact .inr ⟨arg, rfl, (List.mem_singleton.mp isolated).symm⟩
        · simp at isolated
    · simp at member
  · simp at member

/-- What is shared without need is referred to twice at least. -/
theorem two_le_count (member : stem ∈ hoisted true roots) (optional : ¬ Required roots stem) :
    2 ≤ (references roots).count stem := by
  obtain ⟨-, chosen⟩ := List.mem_filter.mp member
  rcases Bool.or_eq_true_iff.mp chosen with required | repeated
  · -- What is required is required by a part of a root.
    obtain ⟨c, known, inside⟩ := List.mem_flatMap.mp (List.contains_iff_mem.mp required)
    obtain ⟨root, given, candidate⟩ := mem_classes.mp known
    obtain ⟨part, within, rfl⟩ := within_of_candidate root false candidate
    have alone := eq_stem_of_requirements inside
    exact absurd ⟨root, given, part, within, alone⟩ optional
  · exact of_decide_eq_true repeated

/-- The stems that operators compute in a program. -/
def computed (roots : List Code) : List Code :=
  let shared := hoisted true roots
  shared.flatMap (computedFor shared) ++ inPlace shared (roots.flatMap (uses shared false))

/-- Temporaries compute their operands in place, and then themselves. -/
theorem count_flatMap_computedFor (shared : List Code) {stems : List Code}
    (own : ∀ c ∈ stems, c.stem = c) : (stems.flatMap (computedFor shared)).count stem =
      (inPlace shared (stems.flatMap (usesBelow shared))).count stem +
        (stems.filter fun c => c.head.isOperator).count stem := by
  -- A temporary adds its own stem to those in place if an operator computes it.
  induction stems with
  | nil => rfl
  | cons c rest ih =>
    obtain ⟨first, others⟩ := List.forall_mem_cons.mp own
    rw [List.flatMap_cons, List.flatMap_cons, List.count_append, ih others, computedFor,
      inPlace_append, List.count_append, List.count_append, first, List.filter_cons]
    split
    · rw [List.count_cons, List.count_cons, List.count_nil]
      omega
    · rw [List.count_nil]
      omega

/-- Every operator that can be shared is computed once. -/
theorem count_computed (operator : stem.head.isOperator = true) (known : stem ∈ classes roots) :
    (computed roots).count stem = 1 := by
  -- The operators in place and those of the temporaries are counted apart.
  have total : (computed roots).count stem =
      (inPlace (hoisted true roots) (allUses roots)).count stem +
        ((hoisted true roots).filter fun c => c.head.isOperator).count stem := by
    rw [computed, List.count_append,
      count_flatMap_computedFor (hoisted true roots) fun c => stem_of_hoisted, allUses,
      inPlace_append, List.count_append]
    omega
  rw [total, List.count_filter (by simpa using operator)]
  by_cases inside : stem ∈ hoisted true roots
  · -- What is shared is computed into its temporary and nowhere else.
    have none : (inPlace (hoisted true roots) (allUses roots)).count stem = 0 :=
      List.count_eq_zero_of_not_mem fun member => by simp [inPlace, inside] at member
    rw [none, List.count_eq_one_of_mem (nodup_hoisted true roots) inside]
  · -- What is not shared is referred to just once, and so used once.
    rw [inPlace, List.count_filter (by simp [operator, inside]), count_allUses_eq,
      List.count_eq_zero_of_not_mem inside]
    have positive := List.count_pos_iff.mpr (mem_references known)
    have once := count_le_one inside
    omega

end Sharing

namespace Program

open Code

/-- A program of well-formed code runs on trees, and leaves the trees that it was emitted for. -/
theorem run_ofCodes {roots : List Code} (wellFormed : ∀ root ∈ roots, root.WellFormed) :
    Trace.start.run (ofCodes true roots).instructions =
      some ⟨roots.reverse, Sharing.hoisted true roots, Sharing.computed roots⟩ := by
  -- What is shared is well-formed, and stored behind all that it loads.
  have stems : ∀ stem ∈ Sharing.hoisted true roots, stem.WellFormed := fun stem inside =>
    Sharing.wellFormed_of_classes wellFormed (Sharing.mem_classes_of_hoisted inside)
  have temporaries := Trace.run_temporaries (Sharing.ordered_hoisted true roots) stems
    (List.nil_append _) []
  rw [ofCodes, Trace.start, Trace.run_append, temporaries, Option.bind_some,
    Trace.run_outputs wellFormed, List.append_nil]
  rfl

/-- Elimination of common subexpressions is complete: a compiled program, run on trees instead of
values, leaves the lowered code of its formulas and computes every operator in it once, up to the
multiplier at its root; a temporary that is not needed by itself is loaded twice at least. -/
theorem compile_complete {roots : List Expr} {codes : List Code}
    (lowered : roots.mapM Expr.lower = .ok codes) :
    ∃ p t, compile true roots = .ok p ∧ Trace.start.run p.instructions = some t ∧
      t.stack = codes.reverse ∧ t.temporaries.length = p.temporaryCount ∧
      (∀ root ∈ codes, ∀ part : Code, part.Within root → part.head.isOperator = true →
        t.computed.count part.stem = 1) ∧
      ∀ index stem, t.temporaries[index]? = some stem →
        Required codes stem ∨ 2 ≤ loadCount index p.instructions := by
  refine ⟨ofCodes true codes, _, by rw [compile, lowered]; rfl,
    run_ofCodes (Expr.wellFormed_of_lower lowered), rfl, rfl, ?_, ?_⟩
  · intro root given part within operator
    exact Sharing.count_computed operator
      (Sharing.mem_classes.mpr ⟨root, given, within.candidate operator false⟩)
  · intro index stem holds
    by_cases required : Required codes stem
    · exact .inl required
    · -- A temporary is loaded as often as its stem is referred to.
      right
      have nodup := Sharing.nodup_hoisted true codes
      have total : loadCount index (ofCodes true codes).instructions =
          (Sharing.references codes).count stem := by
        rw [← Sharing.count_allUses_eq, Sharing.allUses, List.count_append,
          ← loadCount_temporaries nodup holds, ← loadCount_outputs nodup holds, ← loadCount_append]
        rfl
      rw [total]
      exact Sharing.two_le_count (List.mem_of_getElem? holds) required

/-- The square of a wedge and the reverse of that square compute the wedge once and the square once. -/
theorem compile_complete_square :
    let wedge := Expr.wedge (.leaf 0) (.leaf 1)
    let square := Expr.binary .geometric wedge wedge
    let roots := [square, .reverse square]
    let factor := node (.variadic .wedge 2) 1 [.leaf (.input 0) 1, .leaf (.input 1) 1]
    let product := node (.binary .geometric) 1 [factor, factor]
    let codes := [product, node (.unary .reverse) 1 [product]]
    roots.mapM Expr.lower = .ok codes ∧ ∃ p t, compile true roots = .ok p ∧
      Trace.start.run p.instructions = some t ∧ t.stack = codes.reverse ∧
        t.computed.count factor = 1 ∧ t.computed.count product = 1 := by
  intro wedge square roots factor product codes
  have lowered : roots.mapM Expr.lower = .ok codes := by decide +kernel
  -- The wedge is a part of the square, and the square one of the codes.
  obtain ⟨p, t, compiled, runs, stack, -, once, -⟩ := compile_complete lowered
  have inside : factor.Within product := .operand List.mem_cons_self .root
  exact ⟨lowered, p, t, compiled, runs, stack,
    once product List.mem_cons_self factor inside rfl, once product List.mem_cons_self product .root rfl⟩

end Program

end Clifford
