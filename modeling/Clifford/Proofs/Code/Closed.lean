import Clifford.Code.Lowering
import Clifford.Proofs.Result

/-! Properties of lowered code: what every way of building code keeps holds of the code of every
formula. -/

namespace Clifford

namespace Code

/-- A property that is kept by every way in which lowering builds code. -/
structure Closed (P : Code → Prop) : Prop where
  leaf : ∀ {head} q, head.arity = 0 → head.isOperator = false → P (Code.leaf head q)
  withScale : ∀ {code} q, P code → P (code.withScale q)
  parts : ∀ {code}, P code → ∀ part ∈ code.operands, P part
  unary : ∀ op {arg}, P arg → P (node (.unary op) 1 [arg])
  binary : ∀ op {left right}, P left → P right → P (node (.binary op) 1 [left, right])
  component : ∀ element {arg}, P arg → P (node (.component element) 1 [arg])
  wedge : ∀ q {codes}, 2 ≤ codes.length → (∀ code ∈ codes, P code) →
    P (node (.variadic .wedge codes.length) q codes)
  sum : ∀ {operands codes}, mergeLike operands = .ok codes → 2 ≤ codes.length →
    (∀ code ∈ codes, P code) → P (node (.variadic .sum codes.length) 1 codes)

variable {P : Code → Prop} {code : Code} {codes : List Code}

namespace Closed

/-- Zero has the property. -/
theorem zero (closed : Closed P) : P Code.zero := closed.leaf 1 rfl rfl

/-- Multiples have the property. -/
theorem rescale (closed : Closed P) (holds : P code) {q : Rat} {result : Code}
    (made : code.rescale q = .ok result) : P result := by
  -- A multiple is the code itself, zero, or the code with another multiplier.
  rw [Code.rescale] at made
  split at made
  · cases made
    exact holds
  · split at made
    · cases made
      exact closed.zero
    · obtain ⟨p, -, done⟩ := Result.bind_eq_ok.mp made
      cases done
      exact closed.withScale p holds

/-- An operation on one operand has the property. -/
theorem of_unary (closed : Closed P) (holds : P code) {op : UnaryOp} {result : Code}
    (made : Code.unary op code = .ok result) : P result := by
  unfold Code.unary at made
  split at made
  · split at made
    · -- A double reversion is left out, which leaves a part of the code under another multiplier.
      exact closed.rescale (closed.parts holds _ (List.mem_singleton.mpr rfl)) made
    · -- Zero stays as it is under an operation that keeps it.
      cases made
      exact closed.unary _ holds
  · split at made
    · cases made
      exact holds
    · cases made
      exact closed.unary _ holds

/-- An operation on operands has the property, if it has it where it is not left out. -/
theorem gather (closed : Closed P) {op : VariadicOp} {q : Rat} (each : ∀ c ∈ codes, P c)
    (built : 2 ≤ codes.length → P (node (.variadic op codes.length) q codes)) {result : Code}
    (made : Code.gather op q codes = .ok result) : P result := by
  unfold Code.gather at made
  split at made
  · cases made
    exact closed.zero
  · exact closed.rescale (each _ (by simp)) made
  · rename_i nonempty several
    cases made
    refine built ?_
    -- What is neither empty nor single has two operands at least.
    rcases codes with _ | ⟨first, _ | ⟨second, rest⟩⟩
    · exact absurd rfl nonempty
    · exact absurd rfl (several first)
    · simp

end Closed

/-- Merging in code gives multiples of it and of what there was. -/
theorem mem_insertLike : ∀ {codes merged}, insertLike code codes = .ok merged →
    ∀ c ∈ merged, ∃ d ∈ code :: codes, ∃ q, c = d.withScale q := by
  have self (c : Code) : c = c.withScale c.scale := by
    cases c
    rfl
  intro codes
  -- The code is added to the first one that is like it, and stands behind the others if none is.
  induction codes with
  | nil =>
    intro merged made c inside
    cases made
    exact ⟨c, inside, _, self c⟩
  | cons first rest ih =>
    intro merged made c inside
    rw [insertLike] at made
    split at made
    · -- The first one gets the total, and the others stay as they were.
      obtain ⟨total, -, done⟩ := Result.bind_eq_ok.mp made
      cases done
      rcases List.mem_cons.mp inside with rfl | later
      · exact ⟨first, by simp, _, rfl⟩
      · exact ⟨c, by simp [later], _, self c⟩
    · obtain ⟨others, inserted, done⟩ := Result.bind_eq_ok.mp made
      cases done
      rcases List.mem_cons.mp inside with rfl | later
      · exact ⟨c, by simp, _, self c⟩
      · obtain ⟨d, given, multiple⟩ := ih inserted c later
        rcases List.mem_cons.mp given with rfl | old
        · exact ⟨d, by simp, multiple⟩
        · exact ⟨d, by simp [old], multiple⟩

/-- Merging in several gives multiples of them and of what there was. -/
theorem mem_foldlM_insertLike : ∀ {codes before merged : List Code},
    codes.foldlM (fun merged code => insertLike code merged) before = .ok merged →
      ∀ c ∈ merged, ∃ d ∈ codes ++ before, ∃ q, c = d.withScale q := by
  intro codes
  -- Every step adds multiples of one more, and a multiple of a multiple is a multiple.
  induction codes with
  | nil =>
    intro before merged folded c inside
    cases folded
    exact ⟨c, inside, c.scale, by cases c; rfl⟩
  | cons first rest ih =>
    intro before merged folded c inside
    obtain ⟨next, inserted, later⟩ := Result.bind_eq_ok.mp folded
    obtain ⟨d, given, q, rfl⟩ := ih later c inside
    rcases List.mem_append.mp given with added | known
    · exact ⟨d, by simp [added], q, rfl⟩
    · obtain ⟨e, source, p, rfl⟩ := mem_insertLike inserted d known
      exact ⟨e, by rcases List.mem_cons.mp source with rfl | old <;> simp [*], q, rfl⟩

/-- Merged operands are multiples of the operands. -/
theorem mem_mergeLike {merged : List Code} (made : mergeLike codes = .ok merged) :
    ∀ c ∈ merged, ∃ d ∈ codes, ∃ q, c = d.withScale q := by
  obtain ⟨collected, folded, done⟩ := Result.bind_eq_ok.mp made
  cases done
  -- What is sorted and what is left out were collected before, so only the collection matters.
  intro c inside
  simpa using mem_foldlM_insertLike folded c (List.mem_of_mem_filter (List.mem_mergeSort.mp inside))

end Code

namespace Lowering

/-- A lowering that only gives code with a property. -/
structure Gives (P : Code → Prop) (l : Lowering) : Prop where
  code : ∀ {code}, l.code = .ok code → P code
  addends : ∀ {q parts}, l.addends q = .ok parts →
    ∀ part ∈ parts, ∀ {code}, part.2 = .ok code → P code
  factors : ∀ {factors}, l.factors = .ok factors →
    ∀ part ∈ factors.2, ∀ {code}, part = .ok code → P code

variable {P : Code → Prop} {l : Lowering} {args : List Lowering} {q : Rat}

/-- Code with the property enters sums and wedges as a whole. -/
theorem Gives.whole {made : Result Code} (each : ∀ {code}, made = .ok code → P code) :
    (whole made).Gives P where
  code := each
  -- The only addend and the only factor is the code itself.
  addends split part inside := by
    cases split
    obtain rfl := List.mem_singleton.mp inside
    exact each
  factors split part inside := by
    cases split
    obtain rfl := List.mem_singleton.mp inside
    exact each

/-- A multiple of a formula has the parts of the formula. -/
theorem Gives.scaled (closed : Code.Closed P) (gives : l.Gives P) : (l.scaled q).Gives P where
  -- Only the code itself is rescaled, as addends and factors pass their multiplier on.
  code made := by
    obtain ⟨c, first, rescaled⟩ := Result.bind_eq_ok.mp made
    exact closed.rescale (gives.code first) rescaled
  addends split := by
    obtain ⟨p, -, inner⟩ := Result.bind_eq_ok.mp split
    exact gives.addends inner
  factors split := by
    obtain ⟨⟨total, parts⟩, inner, rest⟩ := Result.bind_eq_ok.mp split
    obtain ⟨p, -, done⟩ := Result.bind_eq_ok.mp rest
    cases done
    have own := gives.factors inner
    exact own

/-- The code of a sum has the property. -/
theorem gives_sumCode (closed : Code.Closed P) {parts : List (Rat × Result Code)}
    (each : ∀ part ∈ parts, ∀ {code}, part.2 = .ok code → P code) {result : Code}
    (made : sumCode parts = .ok result) : P result := by
  -- What is gathered are multiples of the parts, with the totals as their multipliers.
  obtain ⟨operands, mapped, rest⟩ := Result.bind_eq_ok.mp made
  obtain ⟨merged, collected, gathered⟩ := Result.bind_eq_ok.mp rest
  have all : ∀ c ∈ merged, P c := by
    intro c inside
    obtain ⟨d, operand, q, rfl⟩ := Code.mem_mergeLike collected c inside
    -- The operand is the code of a part, under the multiplier that it has outside.
    obtain ⟨part, member, scaled⟩ :=
      Result.exists_of_mem_mapM mapped (List.mem_of_mem_filter operand)
    obtain ⟨code, given, rescaled⟩ := Result.bind_eq_ok.mp scaled
    exact closed.withScale q (closed.rescale (each part member given) rescaled)
  exact closed.gather all (fun several => closed.sum collected several all) gathered

/-- A sum gives code with the property. -/
theorem Gives.sum (closed : Code.Closed P) (each : ∀ l ∈ args, l.Gives P) :
    (Lowering.sum args).Gives P := by
  -- The addends are those of the operands one after another, and the code is made of them.
  have addends {q : Rat} {parts : List (Rat × Result Code)}
      (split : (Lowering.sum args).addends q = .ok parts) :
      ∀ part ∈ parts, ∀ {code}, part.2 = .ok code → P code := by
    obtain ⟨lists, mapped, done⟩ := Result.bind_eq_ok.mp split
    cases done
    intro part inside
    obtain ⟨row, member, given⟩ := List.mem_flatten.mp inside
    obtain ⟨arg, source, own⟩ := Result.exists_of_mem_mapM mapped member
    exact (each arg source).addends own part given
  have code {c : Code} (made : (Lowering.sum args).code = .ok c) : P c := by
    obtain ⟨parts, split, rest⟩ := Result.bind_eq_ok.mp made
    exact gives_sumCode closed (addends split) rest
  exact ⟨code, addends, (Gives.whole code).factors⟩

/-- The joined factors of several lowerings have the property. -/
theorem gives_joinFactors (each : ∀ l ∈ args, l.Gives P) :
    ∀ {before after : Rat × List (Result Code)},
      (∀ part ∈ before.2, ∀ {code}, part = .ok code → P code) →
      args.foldlM joinFactors before = .ok after →
        ∀ part ∈ after.2, ∀ {code}, part = .ok code → P code := by
  -- Each step appends the factors of one lowering to those that are known.
  induction args with
  | nil =>
    intro before after known joined
    cases joined
    exact known
  | cons arg rest ih =>
    intro before after known joined
    obtain ⟨first, others⟩ := List.forall_mem_cons.mp each
    obtain ⟨next, step, later⟩ := Result.bind_eq_ok.mp joined
    obtain ⟨⟨total, parts⟩, own, scaled⟩ := Result.bind_eq_ok.mp step
    obtain ⟨p, -, done⟩ := Result.bind_eq_ok.mp scaled
    cases done
    refine ih others (fun part inside => ?_) later
    rcases List.mem_append.mp inside with before | new
    · exact known part before
    · exact first.factors own part new

/-- A wedge gives code with the property. -/
theorem Gives.wedge (closed : Code.Closed P) (each : ∀ l ∈ args, l.Gives P) :
    (Lowering.wedge args).Gives P := by
  -- The multipliers of the factors are collected in front, so the code is made of the bare factors.
  have factors {factors : Rat × List (Result Code)}
      (split : (Lowering.wedge args).factors = .ok factors) :
      ∀ part ∈ factors.2, ∀ {code}, part = .ok code → P code :=
    gives_joinFactors each (by simp) split
  have code {c : Code} (made : (Lowering.wedge args).code = .ok c) : P c := by
    obtain ⟨⟨total, parts⟩, split, rest⟩ := Result.bind_eq_ok.mp made
    obtain ⟨operands, mapped, gathered⟩ := Result.bind_eq_ok.mp rest
    -- A factor that is zero makes the whole wedge zero.
    split at gathered
    · cases gathered
      exact closed.zero
    · have all : ∀ c ∈ operands, P c := fun c inside => by
        obtain ⟨part, member, given⟩ := Result.exists_of_mem_mapM mapped inside
        exact factors split part member given
      exact closed.gather all (fun several => closed.wedge total several all) gathered
  exact ⟨code, (Gives.whole code).addends, factors⟩

end Lowering

namespace Expr

variable {P : Code → Prop}

mutual

/-- Every formula lowers to code with a property that building code keeps. -/
theorem lowering_gives (closed : Code.Closed P) : ∀ e : Expr, e.lowering.Gives P
  -- Sums, wedges and multiples can be taken apart from outside, everything else enters as a whole.
  | leaf _ => .whole fun made => by
    cases made
    exact closed.leaf 1 rfl rfl
  | constant kind element q => .whole fun made => by
    cases made
    rw [Code.constant]
    split
    · exact closed.zero
    · exact closed.leaf q rfl rfl
  | scaled _ arg => (lowering_gives closed arg).scaled closed
  | unary _ arg => .whole fun made => by
    obtain ⟨c, lowered, applied⟩ := Result.bind_eq_ok.mp made
    exact closed.of_unary ((lowering_gives closed arg).code lowered) applied
  | binary op left right => .whole fun made => by
    obtain ⟨l, first, rest⟩ := Result.bind_eq_ok.mp made
    obtain ⟨r, second, done⟩ := Result.bind_eq_ok.mp rest
    cases done
    exact closed.binary op ((lowering_gives closed left).code first)
      ((lowering_gives closed right).code second)
  | variadic .sum args => .sum closed (lowerings_give closed args)
  | variadic .wedge args => .wedge closed (lowerings_give closed args)
  | component arg element => .whole fun made => by
    obtain ⟨c, lowered, done⟩ := Result.bind_eq_ok.mp made
    cases done
    exact closed.component element ((lowering_gives closed arg).code lowered)
  | foreign _ => .whole nofun

/-- Several formulas lower to code with a property that building code keeps. -/
theorem lowerings_give (closed : Code.Closed P) : ∀ es : List Expr, ∀ l ∈ lowerings es, l.Gives P
  | [] => by simp [lowerings]
  | e :: rest => List.forall_mem_cons.mpr ⟨lowering_gives closed e, lowerings_give closed rest⟩

end

/-- Code that a formula lowers to has a property that building code keeps. -/
theorem lower_gives (closed : Code.Closed P) {e : Expr} {code : Code} (lowered : e.lower = .ok code) :
    P code := (lowering_gives closed e).code lowered

end Expr

end Clifford
