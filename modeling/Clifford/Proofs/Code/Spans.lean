import Clifford.Code.Spans
import Clifford.Proofs.Code.Hoisting
import Clifford.Proofs.Code.Order

/-! Spans of code: an analysis of the instructions of trees finds a span for every part of them, which has
the instructions of that part and can be shared where the part can be. -/

namespace Clifford

/-- A tree in linear code, with the place where it begins and whether something is divided by it. -/
structure Occurrence where
  first : Nat
  divisor : Bool
  code : Code

namespace Code

/-- Trees from a position and a place on, each behind a mark if there are any. -/
def consecutive (marked : Bool) (divides : Nat → Bool) (position place : Nat) :
    List Code → List Occurrence
  | [] => []
  | code :: rest =>
    let first := if marked then place + 1 else place
    ⟨first, divides position, code⟩
      :: consecutive marked divides (position + 1) (first + code.instructions.length) rest

mutual

/-- All parts of a tree in the order of their last instructions. -/
def parts (first : Nat) (divisor : Bool) : Code → List Occurrence
  | node head scale operands =>
    partsOf head.marksOperands head.dividesBy 0 first operands
      ++ [⟨first, divisor, node head scale operands⟩]

/-- All parts of trees from a position and a place on. -/
def partsOf (marked : Bool) (divides : Nat → Bool) (position place : Nat) :
    List Code → List Occurrence
  | [] => []
  | code :: rest =>
    let first := if marked then place + 1 else place
    parts first (divides position) code
      ++ partsOf marked divides (position + 1) (first + code.instructions.length) rest

end

mutual

/-- The span of a tree that begins at a place. -/
def span (first : Nat) : Code → Span
  | node head _ operands =>
    .node first (first + (joinOperands head.marksOperands (operandInstructions operands)).length)
      (spansOf head.marksOperands first operands)

/-- The spans of trees from a place on. -/
def spansOf (marked : Bool) (place : Nat) : List Code → List Span
  | [] => []
  | code :: rest =>
    let first := if marked then place + 1 else place
    span first code :: spansOf marked (first + code.instructions.length) rest

end

/-- What the span of a tree is matched by. -/
def spanKey (code : Code) : SpanKey := ⟨some code.checksum, code.instructions.length, code.shape⟩

end Code

namespace Occurrence

/-- The operands of a tree. -/
def operands (o : Occurrence) : List Occurrence :=
  Code.consecutive o.code.head.marksOperands o.code.head.dividesBy 0 o.first o.code.operands

/-- All parts of a tree in linear code. -/
def parts (o : Occurrence) : List Occurrence := o.code.parts o.first o.divisor

/-- The span of a tree. -/
def span (o : Occurrence) : Span := o.code.span o.first

/-- Whether a tree can be shared. -/
def isCandidate (o : Occurrence) : Bool := o.code.isCandidate o.divisor

/-- The instructions of a tree stand in linear code where it begins. -/
def In (is : List Instruction) (o : Occurrence) : Prop :=
  ∃ before after, before.length = o.first ∧ is = before ++ o.code.instructions ++ after

end Occurrence

section Sequence

open Code

variable {marked : Bool} {divides : Nat → Bool} {codes : List Code} {is : List Instruction}
  {o : Occurrence}

/-- Trees in sequence are as many as there are. -/
@[simp] theorem Code.length_consecutive : ∀ {codes : List Code} {position place : Nat},
    (consecutive marked divides position place codes).length = codes.length
  | [], _, _ => rfl
  | _ :: _, _, _ => congrArg Nat.succ length_consecutive

/-- Trees in sequence have their spans. -/
theorem Code.spansOf_eq (divides : Nat → Bool) : ∀ (codes : List Code) (position place : Nat),
    spansOf marked place codes = (consecutive marked divides position place codes).map (·.span)
  | [], _, _ => rfl
  | code :: rest, position, place => by
    rw [spansOf, spansOf_eq divides rest (position + 1), consecutive]
    rfl

/-- The parts of trees in sequence are those of each tree. -/
theorem Code.partsOf_eq : ∀ (codes : List Code) (position place : Nat),
    partsOf marked divides position place codes =
      (consecutive marked divides position place codes).flatMap (·.parts)
  | [], _, _ => rfl
  | code :: rest, position, place => by
    rw [partsOf, partsOf_eq rest, consecutive, List.flatMap_cons]
    rfl

/-- The instructions of trees in sequence, of which the first may stand behind a mark. -/
theorem Code.joinOperands_cons (marked : Bool) (code : Code) (rest : List Code) :
    joinOperands marked (operandInstructions (code :: rest)) =
      (if marked then [Instruction.operand code.instructions.length] else []) ++
        (code.instructions ++ joinOperands marked (operandInstructions rest)) := by
  cases marked <;> rfl

/-- The position of a tree in sequence tells whether something is divided by it. -/
theorem Code.getElem?_consecutive {k : Nat} : ∀ {codes : List Code} {position place : Nat},
    (consecutive marked divides position place codes)[k]? = some o →
      o.divisor = divides (position + k) ∧ codes[k]? = some o.code := by
  intro codes
  induction codes generalizing k with
  | nil => exact fun found => nomatch found
  | cons code rest ih =>
    intro position place found
    cases k with
    | zero =>
      cases found
      exact ⟨rfl, rfl⟩
    | succ k =>
      rw [consecutive, List.getElem?_cons_succ] at found
      obtain ⟨divisor, member⟩ := ih found
      exact ⟨by rw [divisor, Nat.add_right_comm, Nat.add_assoc], member⟩

/-- Trees in sequence are the given ones. -/
theorem Code.code_of_consecutive {position place : Nat}
    (member : o ∈ consecutive marked divides position place codes) : o.code ∈ codes := by
  obtain ⟨k, found⟩ := List.mem_iff_getElem?.mp member
  exact List.mem_of_getElem? (getElem?_consecutive found).2

/-- Trees in sequence stand in linear code if their instructions do. -/
theorem Code.in_of_consecutive : ∀ {codes : List Code} {before after : List Instruction} {position : Nat},
    is = before ++ joinOperands marked (operandInstructions codes) ++ after →
      ∀ o ∈ consecutive marked divides position before.length codes, o.In is
  | [], _, _, _, _, _, member => nomatch member
  | code :: rest, before, after, position, split, o, member => by
    rw [joinOperands_cons] at split
    generalize leading : (if marked then [Instruction.operand code.instructions.length] else []) =
      mark at split
    have place : (before ++ mark).length = if marked then before.length + 1 else before.length := by
      rw [← leading]
      cases marked <;> simp
    rcases List.mem_cons.mp member with rfl | later
    · -- The first tree stands behind its mark.
      refine ⟨before ++ mark, joinOperands marked (operandInstructions rest) ++ after, place, ?_⟩
      rw [split]
      simp only [List.append_assoc]
    · -- The others stand behind the first one.
      have split : is = before ++ mark ++ code.instructions ++
          joinOperands marked (operandInstructions rest) ++ after := by
        rw [split]
        simp only [List.append_assoc]
      have start : (before ++ mark ++ code.instructions).length =
          (if marked then before.length + 1 else before.length) + code.instructions.length := by
        rw [List.length_append, place]
      exact in_of_consecutive split o (start ▸ later)

end Sequence

namespace Analysis

open Code

variable {t : Analysis} {s : Span} {code : Code} {operands : List Code} {marked : Bool}

/-- Instructions are looked at one part after the other. -/
theorem run_append (t : Analysis) (is js : List Instruction) : t.run (is ++ js) = (t.run is).run js :=
  List.foldl_append

/-- Trees in sequence leave their spans on the stack, the last one on top. -/
theorem run_consecutive (marked : Bool) (divides : Nat → Bool) (each : ∀ code ∈ operands, ∀ (t : Analysis) divisor, t.run code.instructions =
      ⟨t.place + code.instructions.length, code.span t.place :: t.stack,
        t.spans ++ (code.parts t.place divisor).map (·.span)⟩) :
    ∀ (t : Analysis) position, t.run (joinOperands marked (operandInstructions operands)) =
      ⟨t.place + (joinOperands marked (operandInstructions operands)).length,
        (spansOf marked t.place operands).reverse ++ t.stack,
        t.spans ++ (partsOf marked divides position t.place operands).map (·.span)⟩ := by
  -- By induction on the trees, each of which begins behind the one before it or behind its own mark.
  induction operands with
  | nil =>
    intro t position
    simp [operandInstructions, joinOperands, run, spansOf, partsOf]
  | cons code rest ih =>
    intro t position
    obtain ⟨own, others⟩ := List.forall_mem_cons.mp each
    -- A mark takes a place and nothing else.
    have mark : t.run (if marked then [Instruction.operand code.instructions.length] else []) =
        { t with place := if marked then t.place + 1 else t.place } := by
      cases marked <;> rfl
    rw [joinOperands_cons, run_append, mark, run_append, own _ (divides position),
      ih others _ (position + 1), spansOf, partsOf]
    cases marked <;> simp <;> omega

/-- An operation begins where its operands do. -/
theorem begins_spansOf {place : Nat} : begins marked (place +
    (joinOperands marked (operandInstructions operands)).length) (spansOf marked place operands) =
      place := by
  cases operands with
  | nil => rfl
  | cons code rest =>
    -- The mark before the first operand takes one place.
    cases code
    cases marked <;> rfl

/-- A tree leaves its span on the stack, and the spans of its parts behind those before. -/
theorem run_instructions (wellFormed : code.WellFormed) : ∀ (t : Analysis) divisor,
    t.run code.instructions =
      ⟨t.place + code.instructions.length, code.span t.place :: t.stack,
        t.spans ++ (code.parts t.place divisor).map (·.span)⟩ := by
  -- By induction on the tree, whose operands leave their spans for its root.
  induction code using Code.induction with
  | node head scale operands ih =>
    intro t divisor
    obtain ⟨count, -, below⟩ := wellFormed
    have before := run_consecutive head.marksOperands head.dividesBy
      (fun code inside => ih code inside (below code inside)) t 0
    rw [instructions, run_append, before]
    -- The operation takes the spans of its operands off the stack, and begins as the first one does.
    have length : (spansOf head.marksOperands t.place operands).reverse.length = head.arity := by
      rw [List.length_reverse, spansOf_eq head.dividesBy operands 0, List.length_map, length_consecutive,
        count]
    have first : begins head.marksOperands (t.place +
        (joinOperands head.marksOperands (operandInstructions operands)).length)
        (spansOf head.marksOperands t.place operands) = t.place :=
      begins_spansOf
    rw [run, List.foldl_cons, List.foldl_nil, instruction, step]
    dsimp only [Code.head]
    rw [perform, List.take_left' length, List.drop_left' length, List.reverse_reverse, first, parts,
      List.map_append, List.append_assoc, List.length_append]
    rfl

/-- The last instructions of spans come one after the other, before the next place. -/
structure Ordered (t : Analysis) : Prop where
  increasing : (t.spans.map Span.root).Pairwise (· < ·)
  inside : ∀ s ∈ t.spans, s.root < t.place

/-- A span that ends at the next place comes behind the others. -/
theorem Ordered.push (ordered : t.Ordered) (ends : s.root = t.place) (stack : List Span) :
    Ordered ⟨t.place + 1, stack, t.spans ++ [s]⟩ where
  increasing := by
    rw [List.map_append, List.pairwise_append]
    refine ⟨ordered.increasing, List.pairwise_singleton _ _, fun a before b own => ?_⟩
    obtain ⟨r, member, rfl⟩ := List.mem_map.mp before
    obtain rfl : b = s.root := List.mem_singleton.mp own
    exact ends ▸ ordered.inside r member
  inside r member := by
    rcases List.mem_append.mp member with before | own
    · exact Nat.lt_succ_of_lt (ordered.inside r before)
    · obtain rfl := List.mem_singleton.mp own
      exact ends ▸ Nat.lt_succ_self _

/-- An instruction has at most one span, which ends there. -/
theorem Ordered.step (ordered : t.Ordered) (i : Instruction) : (t.step i).Ordered := by
  -- Only the next place changes where there is no span.
  have on : Ordered { t with place := t.place + 1 } :=
    ⟨ordered.increasing, fun s member => Nat.lt_succ_of_lt (ordered.inside s member)⟩
  rw [Analysis.step]
  split
  · exact ordered.push rfl _
  · exact ordered.push rfl _
  · exact on
  · exact on

/-- The last instructions of the spans in linear code come one after the other. -/
theorem Ordered.run (ordered : t.Ordered) (is : List Instruction) : (t.run is).Ordered := by
  -- By induction on the instructions, each of which ends at most one span.
  induction is generalizing t with
  | nil => exact ordered
  | cons i is ih => exact ih (ordered.step i)

end Analysis

namespace Occurrence

variable {is : List Instruction} {o p : Occurrence}

/-- A tree is built from its operands. -/
theorem induction {P : Occurrence → Prop} (node : ∀ o, (∀ p ∈ o.operands, P p) → P o) (o : Occurrence) :
    P o := by
  obtain ⟨first, divisor, code⟩ := o
  induction code using Code.induction generalizing first divisor with
  | node head scale operands ih =>
    exact node _ fun p member => ih p.code (Code.code_of_consecutive member) p.first p.divisor

/-- The parts of a tree are those of its operands and the tree itself. -/
theorem parts_eq (o : Occurrence) : o.parts = o.operands.flatMap (·.parts) ++ [o] := by
  obtain ⟨first, divisor, head, scale, operands⟩ := o
  rw [parts, Code.parts, Code.partsOf_eq]
  rfl

/-- A part of a tree is part of an operand, or it is the tree itself. -/
theorem mem_parts : p ∈ o.parts ↔ (∃ q ∈ o.operands, p ∈ q.parts) ∨ p = o := by
  rw [parts_eq, List.mem_append, List.mem_flatMap, List.mem_singleton]

/-- The span of a tree has the spans of its operands. -/
theorem span_eq (o : Occurrence) : o.span = .node o.first o.span.root (o.operands.map span) := by
  obtain ⟨first, divisor, head, scale, operands⟩ := o
  rw [Occurrence.operands, ← Code.spansOf_eq]
  rfl

/-- The operands of the span of a tree are the spans of its operands. -/
theorem operands_span (o : Occurrence) : o.span.operands = o.operands.map span :=
  congrArg Span.operands o.span_eq

/-- The operands of a tree stand in linear code if the tree does. -/
theorem In.operands (inside : o.In is) : ∀ p ∈ o.operands, p.In is := by
  -- Behind the instructions of the operands stands that of the root alone.
  obtain ⟨first, divisor, head, scale, operands⟩ := o
  obtain ⟨before, after, rfl, split⟩ := inside
  rw [Code.instructions, List.append_assoc, List.append_assoc, ← List.append_assoc] at split
  exact Code.in_of_consecutive split

/-- The span of a tree begins where the tree does. -/
@[simp] theorem first_span (o : Occurrence) : o.span.first = o.first := by
  obtain ⟨first, divisor, head, scale, operands⟩ := o
  rfl

/-- The span of a tree is as long as its instructions. -/
theorem root_span (o : Occurrence) : o.span.root + 1 = o.first + o.code.instructions.length := by
  obtain ⟨first, divisor, head, scale, operands⟩ := o
  simp [span, Code.span, Span.root, Code.instructions, Nat.add_assoc]

/-- A span has the instructions of its tree. -/
theorem In.instructions (inside : o.In is) : o.span.instructions is = o.code.instructions := by
  -- What stands before the tree is dropped, and what stands behind it is not taken.
  obtain ⟨before, after, first, rfl⟩ := inside
  rw [Span.instructions, root_span, first_span, Nat.add_sub_cancel_left, List.append_assoc,
    List.drop_left' first, List.take_left' rfl]

/-- A span ends with the instruction that performs the root of its tree. -/
theorem In.getElem?_root (inside : o.In is) : is[o.span.root]? = some o.code.instruction := by
  obtain ⟨first, divisor, head, scale, operands⟩ := o
  obtain ⟨before, after, rfl, rfl⟩ := inside
  rw [Code.instructions, ← List.append_assoc, List.append_assoc, List.getElem?_append_right]
  · simp [span, Code.span, Span.root]
  · simp [span, Code.span, Span.root]

/-- A span performs the operation of its tree. -/
theorem In.head? (inside : o.In is) : o.span.head? is = some o.code.head := by
  rw [Span.head?, inside.getElem?_root]
  rfl

/-- A span is matched as its tree is. -/
theorem In.key (inside : o.In is) : o.span.key is = o.code.spanKey := by
  rw [Span.key, inside.instructions, inside.getElem?_root]
  rfl

/-- A tree is a part of itself. -/
theorem self_mem_parts (o : Occurrence) : o ∈ o.parts := mem_parts.mpr (.inr rfl)

/-- What all operands of a tree inherit holds of all its parts. -/
theorem forall_parts {P : Occurrence → Prop} (inherits : ∀ o, P o → ∀ p ∈ o.operands, P p)
    (o : Occurrence) : P o → ∀ p ∈ o.parts, P p := by
  -- By induction on the tree, since a part is the tree itself or comes from an operand.
  induction o using Occurrence.induction with
  | node o ih =>
    intro holds p member
    rcases mem_parts.mp member with ⟨q, operand, part⟩ | rfl
    · exact ih q operand (inherits o holds q operand) p part
    · exact holds

/-- The operands of a part are parts. -/
theorem mem_parts_of_operands (o : Occurrence) : ∀ p ∈ o.parts, ∀ q ∈ p.operands, q ∈ o.parts := by
  induction o using Occurrence.induction with
  | node o ih =>
    intro p member q operand
    rcases mem_parts.mp member with ⟨r, below, part⟩ | rfl
    · exact mem_parts.mpr (.inl ⟨r, below, ih r below p part q operand⟩)
    · exact mem_parts.mpr (.inl ⟨q, operand, self_mem_parts q⟩)

/-- Every part but the tree itself is an operand of another part. -/
theorem eq_or_mem_operands (o : Occurrence) : ∀ p ∈ o.parts, p = o ∨ ∃ q ∈ o.parts, p ∈ q.operands := by
  induction o using Occurrence.induction with
  | node o ih =>
    intro p member
    rcases mem_parts.mp member with ⟨r, below, part⟩ | rfl
    · refine .inr ?_
      rcases ih r below p part with rfl | ⟨q, inner, operand⟩
      · exact ⟨o, self_mem_parts o, below⟩
      · exact ⟨q, mem_parts.mpr (.inl ⟨r, below, inner⟩), operand⟩
    · exact .inl rfl

/-- An operand that something is divided by is the second one of a quotient. -/
theorem divided_of_operand (operand : p ∈ o.operands) (divisor : p.divisor = true) :
    o.code.head = .binary .divide ∧ o.operands[1]? = some p := by
  obtain ⟨k, found⟩ := List.mem_iff_getElem?.mp operand
  rw [(Code.getElem?_consecutive found).1, Nat.zero_add, Head.dividesBy, Bool.and_eq_true,
    decide_eq_true_iff, decide_eq_true_iff] at divisor
  obtain ⟨quotient, rfl⟩ := divisor
  exact ⟨quotient, found⟩

end Occurrence

/-- The spans of linear code are those of trees in it: each stands where it begins, its operands are among
them, and only divisors of quotients among them are divided by. -/
structure Analysed (is : List Instruction) (spans : List Span) (all : List Occurrence) : Prop where
  spans_eq : spans = all.map (·.span)
  distinct : (spans.map Span.root).Nodup
  inside : ∀ o ∈ all, o.In is
  wellFormed : ∀ o ∈ all, o.code.WellFormed
  operands : ∀ o ∈ all, ∀ p ∈ o.operands, p ∈ all
  divided : ∀ p ∈ all, p.divisor = true →
    ∃ o ∈ all, o.code.head = .binary .divide ∧ o.operands[1]? = some p

namespace Analysed

variable {is : List Instruction} {spans : List Span} {all : List Occurrence} {o p : Occurrence}

/-- A quotient divides by a span if something is divided by its tree. -/
theorem dividesBy (analysed : Analysed is spans all) (member : p ∈ all) :
    Span.dividesBy is spans p.span.root = p.divisor := by
  -- The place where a span ends tells which one it is.
  have injective : ∀ q ∈ all, q.span.root = p.span.root → q = p := fun q other same => by
    have nodup := analysed.distinct
    rw [analysed.spans_eq, List.map_map] at nodup
    exact List.inj_on_of_nodup_map nodup other member same
  rw [Bool.eq_iff_iff, Span.dividesBy, analysed.spans_eq, List.any_map, List.any_eq_true]
  constructor
  · rintro ⟨o, listed, divides⟩
    rw [Function.comp_apply, Bool.and_eq_true, decide_eq_true_iff, decide_eq_true_iff,
      (analysed.inside o listed).head?, o.operands_span, List.getElem?_map, Option.map_map,
      Option.map_eq_some_iff] at divides
    obtain ⟨quotient, q, second, same⟩ := divides
    obtain rfl := injective q (analysed.operands o listed q (List.mem_of_getElem? second)) same
    rw [(Code.getElem?_consecutive second).1, Option.some.inj quotient]
    rfl
  · intro divisor
    obtain ⟨o, listed, quotient, second⟩ := analysed.divided p member divisor
    refine ⟨o, listed, ?_⟩
    simp [(analysed.inside o listed).head?, quotient, o.operands_span, second]

/-- A span can be shared if its tree can. -/
theorem isCandidate (analysed : Analysed is spans all) (member : p ∈ all) :
    p.span.isCandidate is spans = p.isCandidate := by
  rw [Span.isCandidate, (analysed.inside p member).head?, Option.any_some, analysed.dividesBy member]
  rfl

end Analysed

namespace Code

/-- The trees of linear code that is laid out one tree after the other. -/
def listing (roots : List Code) : List Occurrence := consecutive false (fun _ => false) 0 0 roots

/-- The instructions of trees without marks are those of one tree after the other. -/
theorem flatMap_instructions (roots : List Code) :
    roots.flatMap instructions = joinOperands false (operandInstructions roots) := by
  induction roots with
  | nil => rfl
  | cons root rest ih =>
    rw [joinOperands_cons, List.flatMap_cons, ih]
    rfl

/-- The spans of well-formed trees, one after the other, are those of their parts. -/
theorem analysed_run {roots : List Code} (wellFormed : ∀ root ∈ roots, root.WellFormed) :
    let t := Analysis.start.run (roots.flatMap instructions)
    t.stack.reverse = (listing roots).map (·.span) ∧
      Analysed (roots.flatMap instructions) t.spans ((listing roots).flatMap (·.parts)) := by
  intro t
  -- Behind all trees, the stack has their spans, and the spans are those of all parts.
  have runs := Analysis.run_consecutive false (fun _ => false)
    (fun root given => Analysis.run_instructions (wellFormed root given)) Analysis.start 0
  rw [← flatMap_instructions, spansOf_eq (fun _ => false) roots 0, partsOf_eq] at runs
  have ordered : t.Ordered := Analysis.Ordered.run ⟨.nil, by simp [Analysis.start]⟩ _
  have whole : roots.flatMap instructions =
      [] ++ joinOperands false (operandInstructions roots) ++ [] := by simp [flatMap_instructions]
  have place : ∀ o ∈ listing roots, o.In (roots.flatMap instructions) := in_of_consecutive whole
  refine ⟨by simp [t, runs, Analysis.start, listing], ?_, ?_, ?_, ?_, ?_, ?_⟩
  · simp [t, runs, Analysis.start, listing]
  · exact ordered.increasing.imp fun less => less.ne
  · intro o member
    obtain ⟨root, given, part⟩ := List.mem_flatMap.mp member
    exact Occurrence.forall_parts (fun _ => Occurrence.In.operands) root (place root given) o part
  · intro o member
    obtain ⟨root, given, part⟩ := List.mem_flatMap.mp member
    exact Occurrence.forall_parts (P := fun o => o.code.WellFormed)
      (fun o whole p operand => whole.parts p.code (code_of_consecutive operand)) root
      (wellFormed _ (code_of_consecutive given)) o part
  · intro o member p operand
    obtain ⟨root, given, part⟩ := List.mem_flatMap.mp member
    exact List.mem_flatMap.mpr ⟨root, given, root.mem_parts_of_operands o part p operand⟩
  · intro p member divisor
    obtain ⟨root, given, part⟩ := List.mem_flatMap.mp member
    rcases root.eq_or_mem_operands p part with rfl | ⟨o, other, operand⟩
    · -- Nothing is divided by a whole tree.
      obtain ⟨k, found⟩ := List.mem_iff_getElem?.mp given
      rw [(getElem?_consecutive found).1] at divisor
      cases divisor
    · exact ⟨o, List.mem_flatMap.mpr ⟨root, given, other⟩, Occurrence.divided_of_operand operand divisor⟩

end Code

end Clifford
