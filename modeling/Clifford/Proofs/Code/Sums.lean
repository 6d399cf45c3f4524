import Clifford.Proofs.Code.Arity
import Clifford.Proofs.Code.Integral

/-! Sums of like operands: with integers as multipliers, the code of a sum depends only on the total of the
multipliers of each stem, however the sum is nested, ordered and split. -/

namespace Clifford

namespace Expr

mutual

/-- The operands of a formula as a part of a sum under a multiplier, once sums and multiples are taken
apart. -/
def addends (q : Rat) : Expr → List (Rat × Expr)
  | variadic .sum args => addendsAll q args
  | scaled p arg => addends (q * p) arg
  | e => [(q, e)]

/-- The operands of several formulas. -/
def addendsAll (q : Rat) : List Expr → List (Rat × Expr)
  | [] => []
  | e :: rest => addends q e ++ addendsAll q rest

end

mutual

/-- Whether the multipliers that stand outside of the operands of a sum are integers. -/
def hasIntegerMultipliers : Expr → Bool
  | variadic .sum args => haveIntegerMultipliers args
  | scaled q arg => q.den = 1 && hasIntegerMultipliers arg
  | _ => true

/-- Whether the multipliers outside of the operands of several formulas are integers. -/
def haveIntegerMultipliers : List Expr → Bool
  | [] => true
  | e :: rest => hasIntegerMultipliers e && haveIntegerMultipliers rest

end

/-- The operands of a formula as a sum, with the code of each. -/
def loweredAddends (e : Expr) : Result (List (Rat × Code)) :=
  (e.addends 1).mapM fun (q, operand) => do return (q, ← operand.lower)

/-- A formula whose multipliers are integers, outside of its operands and in their code. -/
structure IntegerSum (e : Expr) (operands : List (Rat × Code)) : Prop where
  multipliers : e.hasIntegerMultipliers = true
  lowered : e.loweredAddends = .ok operands
  scales : ∀ operand ∈ operands, operand.2.scale.den = 1

end Expr

/-- The total of the multipliers, outside and inside of its code, with which operands have a stem. -/
def classTotal (operands : List (Rat × Code)) (stem : Code) : Rat :=
  ((operands.filter fun operand => operand.2.stem = stem).map fun operand =>
    operand.1 * operand.2.scale).sum

/-- A tree in which every sum has two operands at least, which do not vanish, are not alike and stand in
strict order. -/
inductive Code.SumsSorted : Code → Prop
  | node {head : Head} {scale : Rat} {operands : List Code}
      (root : ∀ count, head = .variadic .sum count → count = operands.length ∧ 2 ≤ count ∧
        Code.SumOperands operands ∧ operands.Pairwise fun a b => Code.compare a b = .lt)
      (below : ∀ code ∈ operands, SumsSorted code) : SumsSorted (node head scale operands)

namespace Code

variable {code : Code} {operands : List (Rat × Code)}

/-- A node that is no sum has nothing to keep but its operands. -/
theorem sumsSorted_of_other {head : Head} {scale : Rat} {operands : List Code}
    (other : ∀ count, head ≠ .variadic .sum count) (below : ∀ c ∈ operands, c.SumsSorted) :
    (Code.node head scale operands).SumsSorted :=
  .node (fun count same => absurd same (other count)) below

/-- Every way of building code keeps the operands of its sums in strict order. -/
theorem closed_sumsSorted : Closed fun code => code.WellFormed ∧ code.SumsSorted where
  -- Only a sum has something to show, and for it merging has done the work.
  leaf {head} q count other := by
    refine ⟨closed_wellFormed.leaf q count other, sumsSorted_of_other ?_ (by simp)⟩
    rintro n rfl
    cases other
  withScale q holds := by
    obtain ⟨wellFormed, root, below⟩ := holds
    exact ⟨wellFormed.withScale, .node root below⟩
  parts holds part inside := by
    obtain ⟨wellFormed, -, below⟩ := holds
    exact ⟨wellFormed.parts part inside, below part inside⟩
  unary op _ below := ⟨closed_wellFormed.unary op below.1, sumsSorted_of_other (by simp) fun _ inside =>
    List.mem_singleton.mp inside ▸ below.2⟩
  binary op _ _ left right := ⟨closed_wellFormed.binary op left.1 right.1,
    sumsSorted_of_other (by simp) fun _ inside => by
      rcases List.mem_pair.mp inside with rfl | rfl
      · exact left.2
      · exact right.2⟩
  component element _ below := ⟨closed_wellFormed.component element below.1,
    sumsSorted_of_other (by simp) fun _ inside => List.mem_singleton.mp inside ▸ below.2⟩
  wedge q _ several below := ⟨closed_wellFormed.wedge q several fun c inside => (below c inside).1,
    sumsSorted_of_other (by simp) fun c inside => (below c inside).2⟩
  sum {_ codes} collected several below := by
    have wellFormed : ∀ c ∈ codes, c.WellFormed := fun c inside => (below c inside).1
    have operands := sumOperands_mergeLike collected
    -- The operands are well-formed, so that the order tells them apart where they are not alike.
    refine ⟨closed_wellFormed.sum collected several wellFormed, .node (fun count same => ?_)
      fun c inside => (below c inside).2⟩
    obtain rfl : codes.length = count := by simpa using same
    exact ⟨rfl, several, operands, operands.strict wellFormed⟩

@[simp] theorem isZero_stem (code : Code) : code.stem.isZero = code.isZero := by
  cases code
  rfl

/-- A single operand counts for its own stem, unless it is zero. -/
theorem likeScale_singleton (code stem : Code) :
    likeScale ([code].filter fun c => !c.isZero) stem =
      if stem.isZero then 0 else if code.stem = stem then code.scale else 0 := by
  -- Being zero is a matter of the stem.
  by_cases like : code.stem = stem
  · subst like
    cases zero : code.isZero <;> simp [zero]
  · cases zero : code.isZero <;> simp [zero, like]

/-- An operand under a multiplier counts for its stem with the product, unless it is zero. -/
theorem exists_rescale_integer {q : Rat} (outer : q.den = 1) (inner : code.scale.den = 1) :
    ∃ result, code.rescale q = .ok result ∧ result.scale.den = 1 ∧ ∀ stem : Code,
      likeScale ([result].filter fun c => !c.isZero) stem =
        if stem.isZero then 0 else if code.stem = stem then q * code.scale else 0 := by
  -- The code is kept, vanishes, or gets the product as its multiplier.
  rw [rescale]
  split
  · rename_i kept
    refine ⟨code, rfl, inner, fun stem => ?_⟩
    rw [likeScale_singleton]
    -- What is kept is zero or under a multiplier of one.
    rcases Bool.or_eq_true_iff.mp kept with one | zero
    · rw [of_decide_eq_true one, one_mul]
    · by_cases like : code.stem = stem
      · subst like
        simp [zero]
      · simp [like]
  · split
    · rename_i vanishes
      refine ⟨zero, rfl, rfl, fun stem => ?_⟩
      simp [vanishes, zero, isZero, leaf, head]
    · -- Otherwise the code is kept under the product of the two multipliers.
      obtain ⟨product, whole⟩ := gatedMul_integer inner outer
      refine ⟨_, by rw [product]; rfl, by rwa [scale_withScale], fun stem => ?_⟩
      rw [likeScale_singleton, stem_withScale, scale_withScale, mul_comm]

/-- Operands under multipliers count for their stems with the totals of the products. -/
theorem exists_mapM_rescale (integers : ∀ operand ∈ operands, operand.1.den = 1)
    (scales : ∀ operand ∈ operands, operand.2.scale.den = 1) :
    ∃ codes, operands.mapM (fun operand => operand.2.rescale operand.1) = .ok codes ∧
      IntegerScales (codes.filter fun c => !c.isZero) ∧ ∀ stem : Code,
        likeScale (codes.filter fun c => !c.isZero) stem =
          if stem.isZero then 0 else classTotal operands stem := by
  -- Each operand counts its two multipliers for its stem, unless it is zero and left out.
  induction operands with
  | nil => exact ⟨[], rfl, by simp [IntegerScales], fun stem => by simp [classTotal]⟩
  | cons operand rest ih =>
    obtain ⟨outer, outers⟩ := List.forall_mem_cons.mp integers
    obtain ⟨inner, inners⟩ := List.forall_mem_cons.mp scales
    obtain ⟨first, rescaled, whole, own⟩ := exists_rescale_integer outer inner
    obtain ⟨codes, mapped, wholes, total⟩ := ih outers inners
    have split : (first :: codes).filter (fun c => !c.isZero) =
        [first].filter (fun c => !c.isZero) ++ codes.filter fun c => !c.isZero := by
      rw [← List.filter_append]
      rfl
    refine ⟨first :: codes, by rw [List.mapM_cons, rescaled, Result.ok_bind, mapped]; rfl,
      fun c inside => ?_, fun stem => ?_⟩
    · rw [split] at inside
      rcases List.mem_append.mp inside with here | later
      · obtain rfl := List.mem_singleton.mp (List.mem_of_mem_filter here)
        exact whole
      · exact wholes c later
    · -- The first operand and the others are counted apart.
      have append (xs ys : List Code) :
          likeScale (xs ++ ys) stem = likeScale xs stem + likeScale ys stem := by
        simp [likeScale]
      rw [split, append, own, total]
      by_cases zero : stem.isZero
      · simp [zero]
      · by_cases like : operand.2.stem = stem <;> simp [zero, like, classTotal]

end Code

namespace Expr

variable {args : List Expr}

mutual

/-- The addends of a lowering are the operands of the formula, each under its integer. -/
theorem lowering_addends : ∀ (e : Expr) {q : Rat}, e.hasIntegerMultipliers = true → q.den = 1 →
    e.lowering.addends q = .ok ((e.addends q).map fun part => (part.1, part.2.lower)) ∧
      ∀ part ∈ e.addends q, part.1.den = 1
  -- A multiple moves its number into the multiplier, a sum hands it on, and the others are addends.
  | leaf _, q, _, integer => ⟨rfl, by simpa [addends] using integer⟩
  | constant _ _ _, q, _, integer => ⟨rfl, by simpa [addends] using integer⟩
  | scaled p arg, q, whole, integer => by
    obtain ⟨inner, rest⟩ := Bool.and_eq_true_iff.mp whole
    obtain ⟨product, outer⟩ := Code.gatedMul_integer integer (of_decide_eq_true inner)
    have split := lowering_addends arg rest outer
    simpa [lowering, Lowering.scaled, addends, product] using split
  | unary _ _, q, _, integer => ⟨rfl, by simpa [addends] using integer⟩
  | binary _ _ _, q, _, integer => ⟨rfl, by simpa [addends] using integer⟩
  | variadic .sum args, q, whole, integer => by
    obtain ⟨rows, mapped, flat, wholes⟩ := lowerings_addends args whole integer
    refine ⟨?_, wholes⟩
    rw [lowering, Lowering.sum, addends, ← flat]
    simp [mapped]
  | variadic .wedge _, q, _, integer => ⟨rfl, by simpa [addends] using integer⟩
  | component _ _, q, _, integer => ⟨rfl, by simpa [addends] using integer⟩
  | foreign _, q, _, integer => ⟨rfl, by simpa [addends] using integer⟩

/-- The addends of several lowerings are the operands of the formulas. -/
theorem lowerings_addends : ∀ (es : List Expr) {q : Rat}, haveIntegerMultipliers es = true →
    q.den = 1 → ∃ rows, (lowerings es).mapM (fun l => l.addends q) = .ok rows ∧
      rows.flatten = (addendsAll q es).map (fun part => (part.1, part.2.lower)) ∧
      ∀ part ∈ addendsAll q es, part.1.den = 1
  | [], _, _, _ => ⟨[], rfl, rfl, by simp [addendsAll]⟩
  | e :: rest, q, whole, integer => by
    obtain ⟨first, others⟩ := Bool.and_eq_true_iff.mp whole
    obtain ⟨split, integers⟩ := lowering_addends e first integer
    obtain ⟨rows, mapped, flat, integers'⟩ := lowerings_addends rest others integer
    -- The addends of the first formula come first.
    refine ⟨_ :: rows, by rw [lowerings, List.mapM_cons, split, Result.ok_bind, mapped]; rfl, ?_, ?_⟩
    · rw [List.flatten_cons, flat, addendsAll, List.map_append]
    · rw [addendsAll]
      exact fun part inside => (List.mem_append.mp inside).elim (integers part) (integers' part)

end

/-- Operands that have been lowered are rescaled as they would be while they are. -/
theorem mapM_rescale_lowered (parts : List (Rat × Expr)) : ∀ {operands : List (Rat × Code)},
    parts.mapM (fun part => do return (part.1, ← part.2.lower)) = .ok operands →
      (parts.map fun part => (part.1, part.2.lower)).mapM
          (fun part : Rat × Result Code => do (← part.2).rescale part.1) =
        operands.mapM fun operand => operand.2.rescale operand.1 := by
  -- No operand fails to lower, so that it does not matter when it is lowered.
  induction parts with
  | nil =>
    intro operands lowered
    cases lowered
    rfl
  | cons part rest ih =>
    intro operands lowered
    rw [List.mapM_cons] at lowered
    obtain ⟨operand, first, later⟩ := Result.bind_eq_ok.mp lowered
    obtain ⟨others, lowered', done⟩ := Result.bind_eq_ok.mp later
    obtain ⟨code, made, done'⟩ := Result.bind_eq_ok.mp first
    cases done
    cases done'
    rw [List.map_cons, List.mapM_cons, List.mapM_cons, ih lowered', made, Result.ok_bind]

/-- The code of a sum gathers what merging its operands leaves: code with the total of each stem. -/
theorem IntegerSum.exists_code {operands : List (Rat × Code)}
    (sum : IntegerSum (variadic .sum args) operands) : ∃ merged code,
      (variadic .sum args).lower = .ok code ∧ Code.gather .sum 1 merged = .ok code ∧
        Code.SumOperands merged ∧ (∀ c ∈ merged, c.WellFormed) ∧ ∀ stem : Code,
          Code.likeScale merged stem = if stem.isZero then 0 else classTotal operands stem := by
  obtain ⟨split, integers⟩ := lowering_addends (variadic .sum args) sum.multipliers (q := 1) rfl
  have rows := sum.lowered
  rw [loweredAddends] at rows
  -- The operands keep their multipliers while they are lowered.
  have outer : ∀ operand ∈ operands, operand.1.den = 1 := by
    intro operand inside
    obtain ⟨part, member, made⟩ := Result.exists_of_mem_mapM rows inside
    obtain ⟨code, -, done⟩ := Result.bind_eq_ok.mp made
    cases done
    exact integers part member
  obtain ⟨codes, rescaled, whole, total⟩ := Code.exists_mapM_rescale outer sum.scales
  obtain ⟨merged, collected, wholes, kept⟩ := Code.exists_mergeLike whole
  -- A merged operand is a multiple of the code of an operand, and so it is well-formed.
  have wellFormed : ∀ c ∈ merged, c.WellFormed := by
    intro c inside
    obtain ⟨d, operand, q, rfl⟩ := Code.mem_mergeLike collected c inside
    obtain ⟨pair, given, made⟩ :=
      Result.exists_of_mem_mapM rescaled (List.mem_of_mem_filter operand)
    obtain ⟨part, -, lowered⟩ := Result.exists_of_mem_mapM rows given
    obtain ⟨code, own, done⟩ := Result.bind_eq_ok.mp lowered
    cases done
    exact (Code.closed_wellFormed.rescale (lower_gives Code.closed_wellFormed own) made).withScale
  -- Under a multiplier of one, a single operand is not rescaled.
  obtain ⟨code, gathered⟩ : ∃ code, Code.gather .sum 1 merged = .ok code := by
    rcases merged with _ | ⟨first, _ | ⟨second, rest⟩⟩
    · exact ⟨_, rfl⟩
    · exact ⟨first, by rw [Code.gather, Code.rescale]; simp⟩
    · exact ⟨_, rfl⟩
  refine ⟨merged, code, ?_, gathered, Code.sumOperands_mergeLike collected, wellFormed,
    fun stem => (kept stem).trans (total stem)⟩
  -- The sum is lowered from its addends, whose code is known already.
  have lowered : (variadic .sum args).lower = Lowering.sumCode
      (((variadic .sum args).addends 1).map fun part => (part.1, part.2.lower)) := by
    rw [← Result.ok_bind (((variadic .sum args).addends 1).map fun part => (part.1, part.2.lower))
      Lowering.sumCode, ← split]
    rfl
  have operated := mapM_rescale_lowered _ rows
  rw [lowered, Lowering.sumCode]
  dsimp only
  rw [operated, rescaled, Result.ok_bind, collected]
  exact gathered

mutual

/-- The operands of an integral formula are integral, and so are the multipliers outside of them. -/
theorem isIntegral_addends : ∀ (e : Expr) (q : Rat), e.isIntegral = true →
    e.hasIntegerMultipliers = true ∧ ∀ part ∈ e.addends q, part.2.isIntegral = true
  -- Whatever is an addend as a whole is integral because the formula is.
  | leaf _, _, integral => ⟨rfl, by simpa [addends] using integral⟩
  | constant _ _ _, _, integral => ⟨rfl, by simpa [addends] using integral⟩
  | scaled p arg, q, integral => by
    obtain ⟨integer, inner⟩ := Bool.and_eq_true_iff.mp integral
    obtain ⟨whole, parts⟩ := isIntegral_addends arg (q * p) inner
    exact ⟨by rw [hasIntegerMultipliers, integer, whole]; rfl, parts⟩
  | unary _ _, _, integral => ⟨rfl, by simpa [addends] using integral⟩
  | binary _ _ _, _, integral => ⟨rfl, by simpa [addends] using integral⟩
  | variadic .sum args, q, integral => areIntegral_addends args q integral
  | variadic .wedge _, _, integral => ⟨rfl, by simpa [addends] using integral⟩
  | component _ _, _, integral => ⟨rfl, by simpa [addends] using integral⟩

/-- The operands of several integral formulas are integral. -/
theorem areIntegral_addends : ∀ (es : List Expr) (q : Rat), areIntegral es = true →
    haveIntegerMultipliers es = true ∧ ∀ part ∈ addendsAll q es, part.2.isIntegral = true
  | [], _, _ => ⟨rfl, by simp [addendsAll]⟩
  | e :: rest, q, integral => by
    obtain ⟨first, others⟩ := Bool.and_eq_true_iff.mp integral
    obtain ⟨whole, parts⟩ := isIntegral_addends e q first
    obtain ⟨wholes, parts'⟩ := areIntegral_addends rest q others
    refine ⟨by rw [haveIntegerMultipliers, whole, wholes]; rfl, ?_⟩
    rw [addendsAll]
    exact fun part inside => (List.mem_append.mp inside).elim (parts part) (parts' part)

end

/-- Integral formulas are sums of integer multiples. -/
theorem exists_integerSum {e : Expr} (integral : e.isIntegral = true) :
    ∃ operands, IntegerSum e operands := by
  obtain ⟨multipliers, parts⟩ := isIntegral_addends e 1 integral
  -- Every operand has code with an integer as its multiplier.
  obtain ⟨operands, lowered, scales⟩ : ∃ operands, e.loweredAddends = .ok operands ∧
      ∀ operand ∈ operands, operand.2.scale.den = 1 :=
    Result.exists_mapM_forall fun part inside => by
      obtain ⟨code, made, own⟩ := (lowering_integral part.2 (parts part inside)).code
      have lowers : part.2.lower = .ok code := made
      exact ⟨(part.1, code), by simp [lowers], own.scale⟩
  exact ⟨operands, multipliers, lowered, scales⟩

/-- The code of a sum with integer multipliers gathers exactly the stems whose total is not zero, each
with its total, in strict order. So sums with the same totals have the same code, which exists for all
integral formulas. In all code, every sum has operands of this kind, and two of them at least. -/
theorem lower_sum_totals (args : List Expr) :
    (areIntegral args = true → ∃ operands, IntegerSum (variadic .sum args) operands) ∧
    (∀ operands, IntegerSum (variadic .sum args) operands → ∃ merged code,
      (variadic .sum args).lower = .ok code ∧ Code.gather .sum 1 merged = .ok code ∧
        merged.Pairwise (fun a b => Code.compare a b = .lt) ∧
        ∀ c : Code, c ∈ merged ↔
          c.isZero = false ∧ c.scale ≠ 0 ∧ c.scale = classTotal operands c.stem) ∧
    (∀ args' operands operands', IntegerSum (variadic .sum args) operands →
      IntegerSum (variadic .sum args') operands' →
        (∀ stem : Code, stem.isZero = false → classTotal operands stem = classTotal operands' stem) →
          ∃ code, (variadic .sum args).lower = .ok code ∧ (variadic .sum args').lower = .ok code) ∧
    ∀ e code, lower e = .ok code → code.SumsSorted := by
  refine ⟨@exists_integerSum (variadic .sum args), fun operands sum => ?_,
    fun args' operands operands' left right same => ?_,
    fun e code lowered => (lower_gives Code.closed_sumsSorted lowered).2⟩
  · -- What is gathered is known from its totals, since each stem stands there once.
    obtain ⟨merged, code, lowered, gathered, kept, wellFormed, total⟩ := sum.exists_code
    refine ⟨merged, code, lowered, gathered, kept.strict wellFormed, fun c => ⟨fun inside => ?_, ?_⟩⟩
    · have own := Code.likeScale_of_mem kept.distinct inside
      have nonzero := kept.nonzero c inside
      rw [total, Code.isZero_stem] at own
      cases zero : c.isZero with
      | true => simp [zero, ← own] at nonzero
      | false => exact ⟨rfl, nonzero, by simpa [zero] using own.symm⟩
    · rintro ⟨notZero, nonzero, scale⟩
      have counted : Code.likeScale merged c.stem = c.scale := by
        rw [total, Code.isZero_stem, notZero, scale]
        rfl
      exact kept.mem_of_likeScale nonzero counted
  · -- The same totals leave the same operands, and code is gathered from these alone.
    obtain ⟨merged, code, lowered, gathered, kept, wellFormed, total⟩ := left.exists_code
    obtain ⟨merged', code', lowered', gathered', kept', wellFormed', total'⟩ := right.exists_code
    -- Zero has no part in either of them, so its total does not matter.
    obtain rfl := kept.eq_of_likeScale kept' wellFormed wellFormed' fun stem => by
      rw [total, total']
      cases zero : stem.isZero with
      | true => rfl
      | false => simpa using same stem zero
    obtain rfl : code = code' := Except.ok.inj (gathered.symm.trans gathered')
    exact ⟨code, lowered, lowered'⟩

/-- Twice a sum of two inputs from which one is subtracted again, and the other input twice. -/
theorem lower_sum_totals_nested :
    let nested := [scaled 2 (variadic .sum [leaf 0, leaf 1]), scaled (-2) (leaf 1)]
    let split := [leaf 0, zero, leaf 0]
    ∃ code, (variadic .sum nested).lower = .ok code ∧ (variadic .sum split).lower = .ok code := by
  intro nested split
  let first := Code.leaf (.input 0) 1
  let second := Code.leaf (.input 1) 1
  -- Both sums have integers as their multipliers.
  have left : IntegerSum (variadic .sum nested) [(2, first), (2, second), (-2, second)] :=
    ⟨by decide, by
      simp [loweredAddends, nested, addends, addendsAll, lower, lowering, Lowering.whole, first,
        second],
      by simp [first, second, Code.leaf, Code.scale]⟩
  have right : IntegerSum (variadic .sum split) [(1, first), (1, Code.zero), (1, first)] :=
    ⟨by decide, by
      simp [loweredAddends, split, zero, addends, addendsAll, lower, lowering, Lowering.whole, first,
        Code.constant],
      by simp [first, Code.zero, Code.leaf, Code.scale]⟩
  refine (lower_sum_totals nested).2.2.1 split _ _ left right fun stem notZero => ?_
  -- The second input cancels, and zero is no stem that counts.
  have other : Code.zero.stem ≠ stem := by
    rintro rfl
    cases notZero
  obtain ⟨one, one'⟩ : first.scale = 1 ∧ second.scale = 1 := ⟨rfl, rfl⟩
  have differ : second.stem ≠ first.stem := by decide
  clear_value first second
  by_cases input : first.stem = stem
  · subst input
    simp [classTotal, other, differ, one, one_add_one_eq_two]
  · by_cases input' : second.stem = stem <;> simp [classTotal, other, input, input', one']

end Expr

end Clifford
