import Clifford.Proofs.Code.Isolation
import Clifford.Proofs.Code.Spans

/-! Matching: spans of linear code have one fingerprint, one length and one structure exactly where their
trees have one stem, so that instructions are compiled into the program that their trees are compiled
into. -/

namespace Clifford

namespace Code

/-- A well-formed tree without a multiplier. -/
structure IsStem (code : Code) : Prop where
  wellFormed : code.WellFormed
  stem : code.stem = code

variable {a b code stem : Code} {stems : List Code} {q : Rat}

/-- The stem of a well-formed tree. -/
theorem WellFormed.isStem (wellFormed : code.WellFormed) : code.stem.IsStem := ⟨wellFormed.withScale, rfl⟩

/-- The multiplier of a tree has no part in the number of its instructions. -/
@[simp] theorem length_instructions_withScale (code : Code) :
    (code.withScale q).instructions.length = code.instructions.length := by
  -- The multiplier stands in the last instruction.
  obtain ⟨is, own⟩ := code.exists_instructions
  have self : code.withScale code.scale = code := by
    cases code
    rfl
  rw [own, ← congrArg Code.instructions self, own, List.length_append, List.length_append]
  rfl

/-- A tree is matched as its stem is. -/
@[simp] theorem spanKey_stem (code : Code) : code.stem.spanKey = code.spanKey := by
  -- The multiplier of the result has no part in any of the three.
  rw [spanKey, spanKey, stem, checksum_withScale, length_instructions_withScale, shape_withScale]

/-- Well-formed trees are matched where they differ at most in the multiplier of the result. -/
theorem spanKey_eq_iff (left : a.WellFormed) (right : b.WellFormed) :
    a.spanKey = b.spanKey ↔ a.stem = b.stem := by
  -- The shape alone tells well-formed trees apart, and a tree has the key of its stem.
  constructor
  · exact fun same => stem_eq_of_shape left right (congrArg SpanKey.shape same)
  · intro same
    rw [← spanKey_stem a, same, spanKey_stem]

/-- Stems are matched where they are equal. -/
theorem IsStem.key_inj (left : a.IsStem) (right : b.IsStem) : a.spanKey = b.spanKey ↔ a = b := by
  rw [spanKey_eq_iff left.wellFormed right.wellFormed, left.stem, right.stem]

/-- First occurrences of keys are those of stems. -/
theorem eraseDups_keys : ∀ {stems : List Code}, (∀ s ∈ stems, s.IsStem) →
    (stems.map spanKey).eraseDups = stems.eraseDups.map spanKey
  | [], _ => rfl
  | stem :: rest, known => by
    obtain ⟨own, others⟩ := List.forall_mem_cons.mp known
    -- What has the key of the first stem is the first stem again.
    have alike : (rest.map spanKey).filter (fun key => !key == stem.spanKey) =
        (rest.filter fun s => !s == stem).map spanKey := by
      rw [List.filter_map]
      refine congrArg (List.map spanKey) (List.filter_congr fun s listed => ?_)
      rw [Function.comp_apply, Bool.not_inj_iff, beq_eq_beq]
      exact (others s listed).key_inj own
    rw [List.map_cons, List.eraseDups_cons, List.eraseDups_cons, List.map_cons, alike,
      eraseDups_keys fun s listed => others s (List.mem_of_mem_filter listed)]
termination_by stems => stems.length
decreasing_by exact Nat.lt_succ_of_le (List.length_filter_le _ _)

section Keys

variable (known : ∀ s ∈ stems, s.IsStem) (own : stem.IsStem)

include known own

/-- The key of a stem is listed where the stem is. -/
theorem mem_keys : stem.spanKey ∈ stems.map spanKey ↔ stem ∈ stems := by
  constructor
  · intro member
    obtain ⟨s, listed, same⟩ := List.mem_map.mp member
    exact ((known s listed).key_inj own).mp same ▸ listed
  · exact List.mem_map_of_mem

/-- The key of a stem is listed as often as the stem is. -/
theorem count_keys : (stems.map spanKey).count stem.spanKey = stems.count stem := by
  rw [List.count, List.countP_map, List.count]
  refine List.countP_congr fun s listed => ?_
  simp [(known s listed).key_inj own]

/-- The key of a stem is found where the stem is. -/
theorem idxOf?_keys : (stems.map spanKey).idxOf? stem.spanKey = stems.idxOf? stem := by
  induction stems with
  | nil => rfl
  | cons s rest ih =>
    obtain ⟨first, others⟩ := List.forall_mem_cons.mp known
    simp [List.idxOf?_cons, first.key_inj own, ih others]

end Keys

section Sequence

variable (marked : Bool) {head : Head} {shared : List Code}

/-- What can be shared among operands can be shared in one of them. -/
theorem candidatesOf_eq : ∀ (codes : List Code) (position place : Nat),
    candidatesOf head position codes =
      (consecutive marked head.dividesBy position place codes).flatMap fun o =>
        candidates o.divisor o.code
  | [], _, _ => rfl
  | code :: rest, position, place => by
    rw [candidatesOf, candidatesOf_eq rest, consecutive, List.flatMap_cons]

/-- What operands refer to is referred to by one after the other. -/
theorem referencesOf_eq : ∀ (codes : List Code) (position place : Nat) (seen : List Code),
    referencesOf head position codes seen =
      (consecutive marked head.dividesBy position place codes).foldl
        (fun seen o => references o.divisor o.code seen) seen
  | [], _, _, _ => rfl
  | code :: rest, position, place, seen => by
    rw [referencesOf, referencesOf_eq rest, consecutive, List.foldl_cons]

/-- Operands are emitted one after the other. -/
theorem emitOperands_eq : ∀ (codes : List Code) (position place : Nat),
    emitOperands shared head position codes =
      (consecutive marked head.dividesBy position place codes).map fun o =>
        emit shared o.divisor o.code
  | [], _, _ => rfl
  | code :: rest, position, place => by
    rw [emitOperands, emitOperands_eq rest, consecutive, List.map_cons]

/-- Nothing is divided by trees of their own. -/
theorem map_consecutive {β : Type} (f : Bool → Code → β) : ∀ (codes : List Code) (position place : Nat),
    (consecutive marked (fun _ => false) position place codes).map (fun o => f o.divisor o.code) =
      codes.map (f false)
  | [], _, _ => rfl
  | code :: rest, position, place => by
    rw [consecutive, List.map_cons, List.map_cons, map_consecutive f rest]

end Sequence

end Code

namespace Occurrence

open Code

variable {is : List Instruction} {spans : List Span} {all : List Occurrence} {o : Occurrence}

/-- What can be shared in a tree are the stems of its parts that can be shared. -/
theorem candidates_eq (o : Occurrence) : candidates o.divisor o.code =
    (o.parts.filter (·.isCandidate)).map (·.code.stem) := by
  -- By induction on the tree, whose own stem comes behind those of its operands.
  induction o using Occurrence.induction with
  | node o ih =>
    obtain ⟨first, divisor, head, scale, operands⟩ := o
    rw [candidates, candidatesOf_eq head.marksOperands operands 0 first, parts_eq,
      List.filter_append, List.map_append, List.filter_flatMap, List.map_flatMap]
    refine congrArg₂ _ (List.flatMap_congr ih) ?_
    cases shareable : (node head scale operands).isCandidate divisor <;>
      simp [Occurrence.isCandidate, shareable, stem, withScale, Code.head, Code.operands]

/-- What a tree refers to. -/
theorem references_eq (o : Occurrence) (seen : List Code) : references o.divisor o.code seen =
    let stem := o.code.stem
    let below := o.operands.foldl fun seen p => references p.divisor p.code seen
    if o.isCandidate then if seen.contains stem then stem :: seen else below (stem :: seen)
    else below seen := by
  obtain ⟨first, divisor, head, scale, operands⟩ := o
  rw [references, referencesOf_eq head.marksOperands operands 0 first,
    referencesOf_eq head.marksOperands operands 0 first]
  rfl

/-- A tree is loaded, or it is emitted with its operands. -/
theorem emit_eq (shared : List Code) (o : Occurrence) : emit shared o.divisor o.code =
    match if o.isCandidate then shared.idxOf? o.code.stem else none with
    | some index => [{ o.code.instruction with action := .load index }]
    | none => joinOperands o.code.head.marksOperands
        (o.operands.map fun p => emit shared p.divisor p.code) ++ [o.code.instruction] := by
  obtain ⟨first, divisor, head, scale, operands⟩ := o
  rw [emit, emitOperands_eq head.marksOperands operands 0 first]
  rfl

end Occurrence

namespace Analysed

open Code

variable {is : List Instruction} {spans : List Span} {all : List Occurrence} {o : Occurrence}

/-- What spans refer to is matched by the stems that their trees refer to. -/
def References (is : List Instruction) (spans : List Span) (o : Occurrence) : Prop :=
  ∀ {seen : List Code}, (∀ s ∈ seen, s.IsStem) →
    Span.references is spans o.span (seen.map spanKey) =
        (references o.divisor o.code seen).map spanKey ∧
      ∀ s ∈ references o.divisor o.code seen, s.IsStem

/-- Spans in sequence refer to what their trees refer to. -/
theorem referencesOf_spans : ∀ {os : List Occurrence}, (∀ o ∈ os, References is spans o) →
    ∀ {seen : List Code}, (∀ s ∈ seen, s.IsStem) →
      Span.referencesOf is spans (os.map (·.span)) (seen.map spanKey) =
          (os.foldl (fun seen o => references o.divisor o.code seen) seen).map spanKey ∧
        ∀ s ∈ os.foldl (fun seen o => references o.divisor o.code seen) seen, s.IsStem
  | [], _, _, known => ⟨rfl, known⟩
  | o :: rest, each, seen, known => by
    obtain ⟨own, others⟩ := List.forall_mem_cons.mp each
    obtain ⟨same, stems⟩ := own known
    rw [List.map_cons, Span.referencesOf, same, List.foldl_cons]
    exact referencesOf_spans others stems

/-- A span refers to what its tree refers to. -/
theorem references_span (analysed : Analysed is spans all) (o : Occurrence) :
    o ∈ all → References is spans o := by
  -- By induction on the tree: its span can be shared as it can, and refers to its operands as it does.
  induction o using Occurrence.induction with
  | node o ih =>
    intro member seen known
    have operands : ∀ p ∈ o.operands, References is spans p := fun p operand =>
      ih p operand (analysed.operands o member p operand)
    have stem := (analysed.wellFormed o member).isStem
    have candidate := analysed.isCandidate member
    have key := (analysed.inside o member).key
    rw [o.span_eq] at candidate key ⊢
    rw [Span.references, candidate, key, o.references_eq, ← spanKey_stem]
    dsimp only
    have more : ∀ s ∈ o.code.stem :: seen, s.IsStem := List.forall_mem_cons.mpr ⟨stem, known⟩
    by_cases shareable : o.isCandidate = true
    · -- The key of a stem has been seen where the stem has been.
      rw [if_pos shareable, if_pos shareable]
      by_cases before : o.code.stem ∈ seen
      · rw [if_pos (by simpa using (mem_keys known stem).mpr before), if_pos (by simpa using before)]
        exact ⟨rfl, more⟩
      · rw [if_neg (by simpa using mt (mem_keys known stem).mp before), if_neg (by simpa using before)]
        exact referencesOf_spans operands more
    · rw [if_neg shareable, if_neg shareable]
      exact referencesOf_spans operands known

variable {shared : List Code}

/-- Spans in sequence are emitted as their trees are. -/
theorem emitOperands_spans : ∀ {os : List Occurrence},
    (∀ o ∈ os, Span.emit is spans (shared.map spanKey) o.span = emit shared o.divisor o.code) →
      Span.emitOperands is spans (shared.map spanKey) (os.map (·.span)) =
        os.map fun o => emit shared o.divisor o.code
  | [], _ => rfl
  | o :: rest, each => by
    obtain ⟨own, others⟩ := List.forall_mem_cons.mp each
    rw [List.map_cons, Span.emitOperands, own, emitOperands_spans others, List.map_cons]

/-- A span is emitted as its tree is. -/
theorem emit_span (analysed : Analysed is spans all) (known : ∀ s ∈ shared, s.IsStem) (o : Occurrence) :
    o ∈ all → Span.emit is spans (shared.map spanKey) o.span = emit shared o.divisor o.code := by
  -- By induction on the tree, whose key is found among the keys where its stem is among the stems.
  induction o using Occurrence.induction with
  | node o ih =>
    intro member
    have operands := emitOperands_spans fun p operand =>
      ih p operand (analysed.operands o member p operand)
    have stem := (analysed.wellFormed o member).isStem
    have inside := analysed.inside o member
    have candidate := analysed.isCandidate member
    have key := inside.key
    have last := inside.getElem?_root
    have head := inside.head?
    rw [o.span_eq] at candidate key head ⊢
    rw [Span.emit, candidate, key, last, operands, Span.marksOperands, head, o.emit_eq, ← spanKey_stem,
      idxOf?_keys known stem]
    rfl

/-- A span is stored as the stem of its tree is. -/
theorem emitTemporary_span (analysed : Analysed is spans all) (known : ∀ s ∈ shared, s.IsStem)
    (member : o ∈ all) : Span.emitTemporary is spans (shared.map spanKey) o.span =
      emitTemporary shared o.code.stem := by
  -- Operands are emitted as before, and the last instruction loses its multiplier.
  have operands := emitOperands_spans fun p operand =>
    analysed.emit_span known p (analysed.operands o member p operand)
  have inside := analysed.inside o member
  rw [Span.emitTemporary, o.operands_span, operands, Span.marksOperands, inside.head?,
    inside.getElem?_root]
  obtain ⟨first, divisor, head, scale, codes⟩ := o
  rw [emitTemporary, List.append_assoc, stem, withScale]
  dsimp only [Code.head, Code.operands]
  have last : (node head 1 codes).instruction =
      { (node head scale codes).instruction with scale := 1 } := by
    rw [instruction, instruction, checksum, checksum]
    rfl
  rw [emitOperands_eq head.marksOperands codes 0 first, last]
  rfl

/-- The key of an operand is that of its stem, if it has to be computed on its own. -/
theorem isolated_span (analysed : Analysed is spans all) (member : o ∈ all) :
    o.span.isolated is spans = (o.code.isolated o.divisor).map spanKey := by
  rw [Span.isolated, analysed.isCandidate member, (analysed.inside o member).key, isolated,
    Occurrence.isCandidate]
  split
  · rw [List.map_singleton, spanKey_stem]
  · rfl

/-- What has to be computed on its own for a span is so for its tree. -/
theorem requirements_span (analysed : Analysed is spans all) (member : o ∈ all) :
    o.span.requirements is spans = o.code.requirements.map spanKey := by
  have inside := analysed.inside o member
  have key := inside.key
  have isolated : ∀ p ∈ o.operands, p.span.isolated is spans = _ := fun p operand =>
    analysed.isolated_span (analysed.operands o member p operand)
  rw [Span.requirements, inside.head?, o.operands_span, key]
  obtain ⟨first, divisor, head, scale, operands⟩ := o
  dsimp only [Code.head]
  -- Only a quotient and a transcendental function have requirements.
  cases head with
  | input | constant | variadic | component => rfl
  | unary op =>
    match operands with
    | [arg] =>
      have own : Span.isolated is spans (Occurrence.span ⟨first, false, arg⟩) =
          (arg.isolated false).map spanKey := isolated _ List.mem_cons_self
      change (if op.isTranscendental then _ :: Span.isolated is spans (Occurrence.span ⟨first, false, arg⟩)
          else []) =
        (if op.isTranscendental then _ :: arg.isolated false else []).map spanKey
      rw [own]
      split
      · rw [List.map_cons, spanKey_stem]
      · rfl
    | [] | _ :: _ :: _ => rfl
  | binary op =>
    match op, operands with
    | .divide, [dividend, arg] =>
      let place := first + dividend.instructions.length
      have own : Span.isolated is spans (Occurrence.span ⟨place, true, arg⟩) =
          (arg.isolated true).map spanKey :=
        isolated _ (List.mem_cons_of_mem _ List.mem_cons_self)
      change _ :: Span.isolated is spans (Occurrence.span ⟨place, true, arg⟩) =
        (_ :: arg.isolated true).map spanKey
      rw [own, List.map_cons, spanKey_stem]
    | .divide, [] | .divide, [_] | .divide, _ :: _ :: _ :: _ => rfl
    | .geometric, _ | .contract, _ | .inner, _ => rfl

/-- The spans that can be shared are those of trees that can be. -/
theorem filter_isCandidate (analysed : Analysed is spans all) :
    spans.filter (Span.isCandidate is spans) = (all.filter (·.isCandidate)).map (·.span) := by
  -- The spans that are looked at are also those that quotients are looked for in.
  generalize both : Span.isCandidate is spans = shareable
  rw [analysed.spans_eq, List.filter_map]
  exact congrArg (List.map _) (List.filter_congr fun o member => both ▸ analysed.isCandidate member)

variable {roots : List Code}

/-- The trees of several roots that can be shared have the stems that can be. -/
theorem candidates_listing (roots : List Code) :
    (((listing roots).flatMap (·.parts)).filter (·.isCandidate)).map (·.code.stem) =
      roots.flatMap (candidates false) := by
  rw [List.filter_flatMap, List.map_flatMap, List.flatMap_def, List.flatMap_def,
    ← map_consecutive false candidates roots 0 0]
  exact congrArg List.flatten (List.map_congr_left fun o _ => o.candidates_eq.symm)

/-- The keys of spans that can be shared are those of stems that can be. -/
theorem keys_spans (analysed : Analysed is spans ((listing roots).flatMap (·.parts))) :
    (spans.filter (Span.isCandidate is spans)).map (Span.key is) =
      (roots.flatMap (candidates false)).map spanKey := by
  rw [analysed.filter_isCandidate, List.map_map, ← candidates_listing, List.map_map]
  refine List.map_congr_left fun o member => ?_
  rw [Function.comp_apply, (analysed.inside o (List.mem_of_mem_filter member)).key,
    Function.comp_apply, spanKey_stem]

end Analysed

namespace Sharing

open Code

variable {code : Code}

/-- The multiplier of a tree has no part in what has to be computed on its own. -/
theorem requirements_stem (code : Code) : code.stem.requirements = code.requirements := by
  obtain ⟨head, scale, operands⟩ := code
  -- The operation and the number of operands tell what is required.
  cases head with
  | input | constant | variadic | component => rfl
  | unary op => match operands with | [_] | [] | _ :: _ :: _ => rfl
  | binary op =>
    match op, operands with
    | .divide, [_, _] | .divide, [] | .divide, [_] | .divide, _ :: _ :: _ :: _ => rfl
    | .geometric, _ | .contract, _ | .inner, _ => rfl

/-- What has to be computed on its own for a well-formed tree are stems. -/
theorem isStem_of_requirements (wellFormed : code.WellFormed) {s : Code}
    (member : s ∈ requirements code) : s.IsStem := by
  rcases (eq_stem_of_requirements member).2 with rfl | ⟨operand, last, rfl⟩
  · exact wellFormed.isStem
  · exact (wellFormed.parts operand (List.mem_of_getLast? last)).isStem

variable {is : List Instruction} {spans : List Span} {roots : List Code} {stem : Code}

/-- What can be shared in well-formed trees are stems. -/
theorem isStem_of_classes (wellFormed : ∀ root ∈ roots, root.WellFormed)
    (known : stem ∈ classes roots) : stem.IsStem := by
  obtain ⟨root, -, inside⟩ := mem_classes.mp known
  exact ⟨wellFormed_of_classes wellFormed known, stem_of_candidate root false inside⟩

/-- A stem can be shared if it is that of a part that can be. -/
theorem mem_classes_iff : stem ∈ classes roots ↔
    ∃ o ∈ (listing roots).flatMap (·.parts), o.isCandidate = true ∧ o.code.stem = stem := by
  rw [classes, List.mem_eraseDups, ← Analysed.candidates_listing, List.mem_map]
  simp only [List.mem_filter, and_assoc]

section Spans

variable (wellFormed : ∀ root ∈ roots, root.WellFormed)
  (analysed : Analysed is spans ((listing roots).flatMap (·.parts)))

include analysed

/-- Spans refer to what their trees refer to. -/
theorem references_spans :
    Span.referencesOf is spans ((listing roots).map (·.span)) [] = (references roots).map spanKey := by
  have whole : ∀ o ∈ listing roots, Analysed.References is spans o := fun o given =>
    analysed.references_span o (List.mem_flatMap.mpr ⟨o, given, o.self_mem_parts⟩)
  -- Nothing is divided by a root, and all of them are looked into in turn.
  have fold : (listing roots).foldl (fun seen o => Code.references o.divisor o.code seen) [] =
      references roots := by
    have visits := map_consecutive false Code.references roots 0 0
    rw [references, ← List.foldl_map (f := Code.references false) (g := fun seen visit => visit seen),
      ← visits, List.foldl_map]
    rfl
  have none : ∀ s ∈ ([] : List Code), s.IsStem := by simp
  rw [← fold]
  exact (Analysed.referencesOf_spans whole none).1

/-- What has to be computed on its own for spans is so for trees. -/
theorem mem_requirements_spans (own : stem.IsStem) :
    stem.spanKey ∈ spans.flatMap (Span.requirements is spans) ↔
      stem ∈ (classes roots).flatMap requirements := by
  have keys : spans.flatMap (Span.requirements is spans) =
      (((listing roots).flatMap (·.parts)).flatMap (·.code.requirements)).map spanKey := by
    generalize both : Span.requirements is spans = required
    rw [analysed.spans_eq, List.flatMap_map, List.map_flatMap]
    exact List.flatMap_congr fun o member => both ▸ analysed.requirements_span member
  have stems : ∀ s ∈ ((listing roots).flatMap (·.parts)).flatMap (·.code.requirements), s.IsStem := by
    intro s member
    obtain ⟨o, listed, required⟩ := List.mem_flatMap.mp member
    exact isStem_of_requirements (analysed.wellFormed o listed) required
  rw [keys, mem_keys stems own, List.mem_flatMap, List.mem_flatMap]
  constructor
  · rintro ⟨o, listed, required⟩
    -- What requires anything can be shared itself.
    have operator := isOperator_of_standsAlone (eq_stem_of_requirements required).1
    refine ⟨o.code.stem, mem_classes_iff.mpr ⟨o, listed, ?_, rfl⟩, ?_⟩
    · simp [Occurrence.isCandidate, Code.isCandidate, operator]
    · rwa [requirements_stem]
  · rintro ⟨c, known, required⟩
    obtain ⟨o, listed, -, rfl⟩ := mem_classes_iff.mp known
    exact ⟨o, listed, by rwa [requirements_stem] at required⟩

include wellFormed

/-- The classes of spans are those of stems, in the same order. -/
theorem classes_spans : ((spans.filter (Span.isCandidate is spans)).map (Span.key is)).eraseDups =
      (classes roots).map spanKey := by
  rw [analysed.keys_spans, classes, eraseDups_keys]
  exact fun s listed => isStem_of_classes wellFormed (List.mem_eraseDups.mpr listed)

/-- The keys that are shared are those of the stems that are. -/
theorem hoisted_spans (eliminate : Bool) :
    ((spans.filter (Span.isCandidate is spans)).map (Span.key is)).eraseDups.filter (fun key =>
        (spans.flatMap (Span.requirements is spans)).contains key ||
          (eliminate && 1 < (Span.referencesOf is spans ((listing roots).map (·.span)) []).count key)) =
      (hoisted eliminate roots).map spanKey := by
  rw [classes_spans wellFormed analysed, List.filter_map, hoisted, references_spans analysed]
  refine congrArg (List.map _) (List.filter_congr fun stem known => ?_)
  have own := isStem_of_classes wellFormed known
  have referred : ∀ s ∈ references roots, s.IsStem := fun s member =>
    isStem_of_classes wellFormed (mem_classes_of_references member)
  rw [Function.comp_apply, count_keys referred own]
  congr 1
  rw [Bool.eq_iff_iff, List.contains_iff_mem, List.contains_iff_mem]
  exact mem_requirements_spans analysed own

end Spans

end Sharing

namespace Program

open Code

variable {is : List Instruction} {spans : List Span} {roots shared : List Code} {stem : Code}

section Spans

variable (wellFormed : ∀ root ∈ roots, root.WellFormed)
  (analysed : Analysed is spans ((listing roots).flatMap (·.parts)))

include analysed

/-- Whole spans are emitted as their trees are. -/
theorem outputs_spans (stored : ∀ s ∈ shared, s.IsStem) :
    ((listing roots).map (·.span)).flatMap (Span.emit is spans (shared.map spanKey)) =
      roots.flatMap (emit shared false) := by
  rw [List.flatMap_map, List.flatMap_def, List.flatMap_def,
    ← map_consecutive false (emit shared) roots 0 0]
  exact congrArg List.flatten (List.map_congr_left fun o given =>
    analysed.emit_span stored o (List.mem_flatMap.mpr ⟨o, given, o.self_mem_parts⟩))

include wellFormed

/-- The first span with the key of a stem that can be shared is that of a part with this stem. -/
theorem exists_representative (known : stem ∈ Sharing.classes roots) :
    ∃ o ∈ (listing roots).flatMap (·.parts), o.code.stem = stem ∧
      Span.representative? is (spans.filter (Span.isCandidate is spans)) stem.spanKey = some o.span := by
  have own := Sharing.isStem_of_classes wellFormed known
  obtain ⟨p, listed, shareable, rfl⟩ := Sharing.mem_classes_iff.mp known
  have holds : p.span.key is = p.code.stem.spanKey := by
    rw [(analysed.inside p listed).key, spanKey_stem]
  rw [analysed.filter_isCandidate, Span.representative?, List.find?_map]
  -- There is such a span, and the first one has the key too.
  cases found : ((((listing roots).flatMap (·.parts)).filter (·.isCandidate)).find?
      ((fun s : Span => decide (s.key is = p.code.stem.spanKey)) ∘ fun o => o.span)) with
  | none =>
    have none := List.find?_eq_none.mp found p (List.mem_filter.mpr ⟨listed, shareable⟩)
    simp [holds] at none
  | some o =>
    have inside := List.mem_of_mem_filter (List.mem_of_find?_eq_some found)
    have key : o.span.key is = p.code.stem.spanKey := by simpa using List.find?_some found
    refine ⟨o, inside, ?_, rfl⟩
    rw [(analysed.inside o inside).key, ← spanKey_stem] at key
    exact ((analysed.wellFormed o inside).isStem.key_inj own).mp key

/-- The first spans with the keys of stems are stored as the stems are. -/
theorem temporaries_spans (stored : ∀ s ∈ shared, s.IsStem) :
    ∀ {stems : List Code}, (∀ s ∈ stems, s ∈ Sharing.classes roots) →
      ((stems.map spanKey).filterMap
          (Span.representative? is (spans.filter (Span.isCandidate is spans)))).flatMap
        (Span.emitTemporary is spans (shared.map spanKey)) = stems.flatMap (emitTemporary shared)
  | [], _ => rfl
  | stem :: rest, known => by
    obtain ⟨own, others⟩ := List.forall_mem_cons.mp known
    obtain ⟨o, listed, rfl, first⟩ := exists_representative wellFormed analysed own
    rw [List.map_cons, List.filterMap_cons_some first, List.flatMap_cons, List.flatMap_cons,
      temporaries_spans stored others, analysed.emitTemporary_span stored listed]

end Spans

/-- Instructions are compiled, by matching their spans, into the program that their trees are compiled
into. -/
theorem ofLinear_eq (eliminate : Bool) (wellFormed : ∀ root ∈ roots, root.WellFormed) :
    ofLinear eliminate (roots.flatMap Code.instructions) = ofCodes eliminate roots := by
  -- What is shared, what is stored and what is put out are those of the trees.
  obtain ⟨stack, analysed⟩ := analysed_run wellFormed
  have known : ∀ s ∈ Sharing.hoisted eliminate roots, s.IsStem := fun s inside =>
    Sharing.isStem_of_classes wellFormed (Sharing.mem_classes_of_hoisted inside)
  have count := congrArg List.length stack
  rw [List.length_reverse, List.length_map, listing, length_consecutive] at count
  rw [ofLinear, stack, Sharing.hoisted_spans wellFormed analysed eliminate, count,
    temporaries_spans wellFormed analysed known fun s => Sharing.mem_classes_of_hoisted,
    outputs_spans analysed known, List.length_map]
  rfl

/-- Formulas are compiled from the instructions that they lower to, one formula after the other, in which
equal computations are found by matching spans. -/
theorem compile_eq (eliminate : Bool) (roots : List Expr) : compile eliminate roots = do
    return ofLinear eliminate ((← roots.mapM Expr.lower).flatMap Code.instructions) := by
  rw [compile]
  cases lowered : roots.mapM Expr.lower with
  | error => rfl
  | ok codes => exact congrArg Except.ok (ofLinear_eq eliminate (Expr.wellFormed_of_lower lowered)).symm

end Program

end Clifford
