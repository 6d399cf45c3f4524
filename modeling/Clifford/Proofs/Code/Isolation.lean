import Clifford.Proofs.Code.Inspection
import Clifford.Proofs.Code.Layout

/-! Isolation: quotients and transcendental functions are computed right before a store, and divisors
are loaded or need no computation. -/

namespace Clifford

namespace Instruction

/-- Whether an instruction performs a quotient or a transcendental function. -/
def standsAlone (i : Instruction) : Bool :=
  match i.action with
  | .perform head => head.standsAlone
  | _ => false

/-- Whether an instruction pushes a value that is there already: a temporary, a leaf or a constant. -/
def isAtom (i : Instruction) : Bool :=
  match i.action with
  | .load _ => true
  | .perform (.input _) => true
  | .perform (.constant _ _) => true
  | _ => false

end Instruction

namespace Code

/-- A quotient or transcendental function stands right before a store, and a quotient right behind an
atom, which it divides by. -/
def Isolated (before : List Instruction) (i : Instruction) (after : List Instruction) : Prop :=
  i.standsAlone = true → (∃ later, after = Instruction.store :: later) ∧
    (i.action = .perform (.binary .divide) → ∃ earlier j, before = earlier ++ [j] ∧ j.isAtom = true)

/-- The quotients and transcendental functions in code are shared. -/
def AloneShared (shared : List Code) : Code → Prop :=
  Every fun stem => stem.head.standsAlone = true → stem ∈ shared

variable {shared : List Code} {code : Code}

/-- What stands alone can be shared. -/
theorem isOperator_of_standsAlone {head : Head} (alone : head.standsAlone = true) :
    head.isOperator = true := by
  -- Only operators stand alone.
  cases head with
  | unary | binary | variadic => rfl
  | input | constant | component => cases alone

/-- A tree that can be shared is loaded, if its stem is shared. -/
theorem loaded_of_mem {divisor : Bool} (shareable : code.isCandidate divisor = true)
    (inside : code.stem ∈ shared) : ∃ index, code.loaded shared divisor = some index := by
  -- The stem is looked up among those that are shared, and found.
  rw [loaded, if_pos shareable]
  cases found : shared.idxOf? code.stem with
  | some index => exact ⟨index, rfl⟩
  | none => exact absurd inside (List.idxOf?_eq_none_iff.mp found)

/-- What stands alone is loaded wherever it is an operand or an output. -/
theorem emit_together (alone : AloneShared shared code) (divisor : Bool) :
    ∀ i ∈ emit shared divisor code, i.standsAlone = false := by
  -- Marks and loads do not stand alone, so it is left to look at the operations.
  refine forall_emit (R := AloneShared shared) (fun _ => rfl) (fun _ _ _ => rfl) ?_ ?_ code divisor alone
  · rintro _ ⟨-, below⟩
    exact below
  · intro code divisor alone absent
    -- Otherwise it would have been loaded.
    by_contra stands
    have head : code.head.standsAlone = true := by simpa [instruction, Instruction.standsAlone] using stands
    have shareable : code.isCandidate divisor = true := by
      simp [isCandidate, isOperator_of_standsAlone head]
    obtain ⟨index, found⟩ := loaded_of_mem shareable (alone.stem head)
    rw [absent] at found
    cases found

/-- Operands are computed without anything that stands alone. -/
theorem operands_together (alone : AloneShared shared code) :
    ∀ i ∈ joinOperands code.head.marksOperands (emitOperands shared code.head 0 code.operands),
      i.standsAlone = false := by
  -- Every operand has the property, and joining them adds no more than marks.
  obtain ⟨-, below⟩ := alone
  exact forall_joinOperands (fun _ => rfl)
    (forall_emitOperands (fun c inside => emit_together (below c inside)) _ 0)

/-- Code without anything that stands alone is isolated. -/
theorem isolated_of_together {is left right : List Instruction}
    (together : ∀ i ∈ is, i.standsAlone = false) : Throughout Isolated left is right := by
  -- There is no such instruction to say anything about.
  intro before i after split alone
  rw [together i (by simp [split])] at alone
  cases alone

/-- A divisor ends in an atom, if it is shared where it can be. -/
theorem emit_divisor {divisor : Code} (covered : divisor.isCandidate true = true → divisor.stem ∈ shared) :
    ∃ earlier j, emit shared true divisor = earlier ++ [j] ∧ j.isAtom = true := by
  -- A divisor that can be shared is a single load, and any other one ends in its own operation.
  rw [emit_eq]
  cases found : divisor.loaded shared true with
  | some index => exact ⟨[], _, rfl, rfl⟩
  | none =>
    have unshareable : divisor.isCandidate true = false := by
      by_contra shareable
      rw [Bool.not_eq_false] at shareable
      obtain ⟨index, other⟩ := loaded_of_mem shareable (covered shareable)
      rw [found] at other
      cases other
    refine ⟨_, _, rfl, ?_⟩
    -- Only leaves and constants cannot be shared as divisors.
    obtain ⟨head, scale, operands⟩ := divisor
    cases head with
    | input | constant => rfl
    | unary | binary | variadic | component => cases unshareable

/-- A temporary is isolated. -/
theorem isolated_emitTemporary {stem : Code} (wellFormed : stem.WellFormed)
    (alone : AloneShared shared stem) (covered : Covered shared stem) :
    ∀ left right, Throughout Isolated left (emitTemporary shared stem) right := by
  intro left right
  rw [emitTemporary_eq, emitWhole]
  -- Of the operands, the operation and the store, only the operation may stand alone.
  refine .append (.append (isolated_of_together (operands_together alone)) (.single ?_))
    (isolated_of_together (by simp [Instruction.store, Instruction.standsAlone]))
  intro _
  refine ⟨⟨_, rfl⟩, fun quotient => ?_⟩
  obtain ⟨head, scale, operands⟩ := stem
  obtain rfl : head = .binary .divide := Action.perform.inj quotient
  obtain ⟨dividend, divisor, rfl⟩ := List.length_eq_two.mp wellFormed.count
  -- The divisor is the last operand, without a mark in front of it.
  obtain ⟨earlier, j, ends, atom⟩ := emit_divisor (covered dividend divisor rfl rfl)
  refine ⟨left ++ (emit shared false dividend ++ earlier), j, ?_, atom⟩
  have joined : joinOperands (Code.node (.binary .divide) scale [dividend, divisor]).head.marksOperands
      (emitOperands shared (.binary .divide) 0 [dividend, divisor]) =
        emit shared false dividend ++ emit shared true divisor := by
    simp [joinOperands, emitOperands, Code.head, Head.marksOperands, Head.dividesBy]
  show left ++ joinOperands _ (emitOperands shared (.binary .divide) 0 [dividend, divisor]) = _
  rw [joined, ends]
  simp

end Code

namespace Sharing

open Code

variable {eliminate : Bool} {roots : List Code}

/-- Everything in the trees of a program that stands alone is hoisted. -/
theorem aloneShared_of_root (wellFormed : ∀ root ∈ roots, root.WellFormed) {root : Code}
    (member : root ∈ roots) : AloneShared (hoisted eliminate roots) root := by
  refine every_of_candidates (q := (· ∈ classes roots))
    (fun {divisor head scale operands} known alone => ?_) root false
    fun _ inside => mem_classes.mpr ⟨root, member, inside⟩
  -- What stands alone is an operator, so that it is a candidate itself wherever it stands.
  have operator : head.isOperator = true := isOperator_of_standsAlone alone
  have shareable : (node head scale operands).isCandidate divisor = true := by
    simp [isCandidate, Code.head, operator]
  exact hoisted_of_standsAlone wellFormed (known _ (mem_candidates.mpr (.inr ⟨shareable, rfl⟩))) alone

end Sharing

/-- Every quotient and transcendental function of a program is computed right before a store, and every
quotient right behind an atom. -/
theorem Program.isolated_ofCodes (eliminate : Bool) {roots : List Code}
    (wellFormed : ∀ root ∈ roots, root.WellFormed) {before after : List Instruction} {i : Instruction}
    (split : (ofCodes eliminate roots).instructions = before ++ i :: after) :
    Code.Isolated before i after := by
  have all : Code.Throughout Code.Isolated [] (ofCodes eliminate roots).instructions [] := by
    refine .append (.flatMap (fun stem inside => ?_) _ _) (Code.isolated_of_together ?_)
    · -- What a temporary consists of is shared like what the outputs consist of.
      have known := Sharing.wellFormed_of_classes wellFormed (Sharing.mem_classes_of_hoisted inside)
      have alone : Code.AloneShared (Sharing.hoisted eliminate roots) stem :=
        Sharing.every_of_hoisted (fun root member => Sharing.aloneShared_of_root wellFormed member) inside
      have covered : Code.Covered (Sharing.hoisted eliminate roots) stem.stem :=
        (Sharing.every_of_hoisted (fun root member => Sharing.covered_of_root member) inside).stem
      rw [Sharing.stem_of_hoisted inside] at covered
      exact Code.isolated_emitTemporary known alone covered
    · intro i inside
      obtain ⟨root, member, given⟩ := List.mem_flatMap.mp inside
      exact Code.emit_together (Sharing.aloneShared_of_root wellFormed member) false i given
  simpa using all before i after split

end Clifford
