import Clifford.Proofs.Code.Closed
import Clifford.Proofs.Code.Like

/-! Integral formulas: with integers as their numbers they lower to code in which every multiplier is an
integer, and lowering them does not fail. -/

namespace Clifford

namespace Code

/-- A tree in which every multiplier is an integer. -/
inductive Integral : Code → Prop
  | node {head : Head} {scale : Rat} {operands : List Code} (integer : scale.den = 1)
      (below : ∀ code ∈ operands, Integral code) : Integral (node head scale operands)

variable {code : Code} {codes : List Code} {q : Rat}

/-- The multiplier of the result is an integer. -/
theorem Integral.scale (integral : code.Integral) : code.scale.den = 1 := by
  obtain ⟨integer, -⟩ := integral
  exact integer

/-- The operands are integral. -/
theorem Integral.parts (integral : code.Integral) : ∀ c ∈ code.operands, c.Integral := by
  obtain ⟨-, below⟩ := integral
  exact below

/-- Another integer may be the multiplier. -/
theorem Integral.withScale (integral : code.Integral) (integer : q.den = 1) :
    (code.withScale q).Integral := .node integer integral.parts

/-- A node without operands. -/
theorem integral_leaf {head : Head} (integer : q.den = 1) : (Code.leaf head q).Integral :=
  .node integer (by simp)

/-- Products of integers pass the gate. -/
theorem gatedMul_integer {p q : Rat} (left : p.den = 1) (right : q.den = 1) :
    gatedMul p q = .ok (p * q) ∧ (p * q).den = 1 := by
  have first := Dyadic.zero_iff.mpr left
  have second := Dyadic.zero_iff.mpr right
  exact ⟨gatedMul_eq_ok first second (by decide), Dyadic.zero_iff.mp (first.mul second)⟩

/-- Integral code is multiplied by an integer. -/
theorem Integral.exists_rescale (integral : code.Integral) (integer : q.den = 1) :
    ∃ result, code.rescale q = .ok result ∧ result.Integral := by
  rw [Code.rescale]
  -- The product of two integers is the only number that a multiple computes.
  split
  · exact ⟨code, rfl, integral⟩
  · split
    · exact ⟨Code.zero, rfl, integral_leaf rfl⟩
    · obtain ⟨product, whole⟩ := gatedMul_integer integral.scale integer
      exact ⟨_, by rw [product]; rfl, integral.withScale whole⟩

/-- An operation on one integral operand. -/
theorem Integral.exists_unary (integral : code.Integral) (op : UnaryOp) :
    ∃ result, Code.unary op code = .ok result ∧ result.Integral := by
  have single : (Code.node (.unary op) 1 [code]).Integral :=
    .node rfl fun c inside => List.mem_singleton.mp inside ▸ integral
  -- A double reversion is left out, so that what is reverted is rescaled.
  unfold Code.unary
  split
  · split
    · exact (integral.parts _ (List.mem_singleton.mpr rfl)).exists_rescale integral.scale
    · exact ⟨_, rfl, single⟩
  · split
    · exact ⟨_, rfl, integral⟩
    · exact ⟨_, rfl, single⟩

/-- An operation on integral operands. -/
theorem exists_gather (op : VariadicOp) (integer : q.den = 1) (each : ∀ c ∈ codes, c.Integral) :
    ∃ result, gather op q codes = .ok result ∧ result.Integral := by
  unfold gather
  -- Nothing is gathered to zero, a single operand is rescaled, and several are put under one node.
  split
  · exact ⟨_, rfl, integral_leaf rfl⟩
  · exact (each _ (by simp)).exists_rescale integer
  · exact ⟨_, rfl, .node integer each⟩

end Code

namespace Lowering

/-- A lowering that gives integral code, and integers as the multipliers of its parts, and does not
fail. -/
structure Integral (l : Lowering) : Prop where
  code : ∃ code, l.code = .ok code ∧ code.Integral
  addends : ∀ {q : Rat}, q.den = 1 → ∃ parts, l.addends q = .ok parts ∧
    ∀ part ∈ parts, part.1.den = 1 ∧ ∃ code, part.2 = .ok code ∧ code.Integral
  factors : ∃ factors, l.factors = .ok factors ∧ factors.1.den = 1 ∧
    ∀ part ∈ factors.2, ∃ code, part = .ok code ∧ code.Integral

variable {l : Lowering} {args : List Lowering} {q : Rat}

/-- Integral code enters sums and wedges as a whole. -/
theorem Integral.whole {made : Result Code} (exists_code : ∃ code, made = .ok code ∧ code.Integral) :
    (whole made).Integral where
  code := exists_code
  -- The only addend is under the multiplier from outside, and the only factor under one.
  addends {q} integer := ⟨[(q, made)], rfl, by simpa using ⟨integer, exists_code⟩⟩
  factors := ⟨(1, [made]), rfl, rfl, by simpa using exists_code⟩

/-- An integer multiple passes its multiplier on. -/
theorem Integral.scaled (integral : l.Integral) (integer : q.den = 1) : (l.scaled q).Integral where
  -- Wherever the multiplier is multiplied, the product is that of two integers.
  code := by
    obtain ⟨c, made, own⟩ := integral.code
    obtain ⟨result, rescaled, whole⟩ := own.exists_rescale integer
    exact ⟨result, by rw [Lowering.scaled, made]; exact rescaled, whole⟩
  addends {p} outer := by
    obtain ⟨product, whole⟩ := Code.gatedMul_integer outer integer
    obtain ⟨parts, split, each⟩ := integral.addends whole
    exact ⟨parts, by simpa [Lowering.scaled, product] using split, each⟩
  factors := by
    obtain ⟨⟨total, parts⟩, split, inner, each⟩ := integral.factors
    obtain ⟨product, whole⟩ := Code.gatedMul_integer integer inner
    exact ⟨(q * total, parts), by simp [Lowering.scaled, split, product], whole, each⟩

/-- The code of integral addends. -/
theorem exists_sumCode {parts : List (Rat × Result Code)}
    (each : ∀ part ∈ parts, part.1.den = 1 ∧ ∃ code, part.2 = .ok code ∧ code.Integral) :
    ∃ code, sumCode parts = .ok code ∧ code.Integral := by
  -- No step fails: the parts are rescaled by integers, and like ones have integers to be added up.
  have rescaled : ∀ part ∈ parts, ∃ c,
      (do (← part.2).rescale part.1) = Except.ok c ∧ c.Integral := by
    intro part inside
    obtain ⟨integer, code, made, own⟩ := each part inside
    rw [made]
    exact own.exists_rescale integer
  obtain ⟨operands, mapped, own⟩ := Result.exists_mapM_forall rescaled
  have all : ∀ c ∈ operands.filter fun code => !code.isZero, c.Integral :=
    fun c inside => own c (List.mem_of_mem_filter inside)
  obtain ⟨merged, collected, integers, -⟩ := Code.exists_mergeLike fun c inside => (all c inside).scale
  obtain ⟨code, gathered, own⟩ := Code.exists_gather .sum Rat.den_one fun c inside => by
    -- A merged operand is an operand with another integer.
    obtain ⟨d, operand, p, rfl⟩ := Code.mem_mergeLike collected c inside
    have integer := integers _ inside
    rw [Code.scale_withScale] at integer
    exact (all d operand).withScale integer
  exact ⟨code, by rw [sumCode, mapped, Result.ok_bind, collected]; exact gathered, own⟩

/-- A sum of integral lowerings. -/
theorem Integral.sum (each : ∀ l ∈ args, l.Integral) : (Lowering.sum args).Integral := by
  -- All operands can be taken apart, each under the multiplier of the sum.
  have addends {q : Rat} (integer : q.den = 1) : ∃ parts, (Lowering.sum args).addends q = .ok parts ∧
      ∀ part ∈ parts, part.1.den = 1 ∧ ∃ code, part.2 = .ok code ∧ code.Integral := by
    obtain ⟨rows, mapped, own⟩ := Result.exists_mapM_forall fun l inside =>
      (each l inside).addends integer
    refine ⟨rows.flatten, by simp [Lowering.sum, mapped], fun part inside => ?_⟩
    obtain ⟨row, member, given⟩ := List.mem_flatten.mp inside
    exact own row member part given
  have code : ∃ code, (Lowering.sum args).code = .ok code ∧ code.Integral := by
    obtain ⟨parts, split, own⟩ := addends (q := 1) rfl
    obtain ⟨code, made, integral⟩ := exists_sumCode own
    refine ⟨code, ?_, integral⟩
    rw [← made, ← Result.ok_bind parts sumCode, ← split]
    rfl
  exact ⟨code, addends, (Integral.whole code).factors⟩

/-- The factors of integral lowerings are joined. -/
theorem exists_joinFactors (each : ∀ l ∈ args, l.Integral) :
    ∀ before : Rat × List (Result Code), before.1.den = 1 →
      (∀ part ∈ before.2, ∃ code, part = .ok code ∧ code.Integral) →
      ∃ after, args.foldlM joinFactors before = .ok after ∧ after.1.den = 1 ∧
        ∀ part ∈ after.2, ∃ code, part = .ok code ∧ code.Integral := by
  -- The multiplier in front stays an integer, as a product of two at each step.
  induction args with
  | nil => exact fun before integer known => ⟨before, rfl, integer, known⟩
  | cons l rest ih =>
    intro before integer known
    obtain ⟨first, others⟩ := List.forall_mem_cons.mp each
    obtain ⟨⟨total, parts⟩, split, inner, own⟩ := first.factors
    obtain ⟨product, whole⟩ := Code.gatedMul_integer integer inner
    have step : joinFactors before l = .ok (before.1 * total, before.2 ++ parts) := by
      simp [joinFactors, split, product]
    obtain ⟨after, joined, result⟩ := ih others (before.1 * total, before.2 ++ parts) whole
      fun part inside => (List.mem_append.mp inside).elim (known part) (own part)
    exact ⟨after, by rw [List.foldlM_cons, step]; exact joined, result⟩

/-- A wedge of integral lowerings. -/
theorem Integral.wedge (each : ∀ l ∈ args, l.Integral) : (Lowering.wedge args).Integral := by
  -- The multipliers of all factors are collected in front of the code.
  obtain ⟨⟨total, parts⟩, joined, integer, own⟩ :=
    exists_joinFactors each (1, []) rfl (by simp)
  -- Every factor has code, which is all that can fail behind them.
  have code : ∃ code, (Lowering.wedge args).code = .ok code ∧ code.Integral := by
    obtain ⟨operands, mapped, all⟩ : ∃ operands, parts.mapM id = .ok operands ∧
        ∀ c ∈ operands, c.Integral := Result.exists_mapM_forall own
    obtain ⟨gathered, made, integral⟩ := Code.exists_gather .wedge integer all
    -- The code of a wedge is that of its joined factors.
    have same : (Lowering.wedge args).code = wedgeCode total parts := by
      simp [Lowering.wedge, Lowering.whole, joined]
    rw [same, wedgeCode, mapped, Result.ok_bind]
    split
    · exact ⟨_, rfl, Code.integral_leaf rfl⟩
    · exact ⟨gathered, made, integral⟩
  exact ⟨code, (Integral.whole code).addends, (total, parts), joined, integer, own⟩

end Lowering

namespace Expr

mutual

/-- Whether all numbers in a formula are integers, and it holds nothing foreign. -/
def isIntegral : Expr → Bool
  | leaf _ => true
  | constant _ _ q => q.den = 1
  | scaled q arg => q.den = 1 && isIntegral arg
  | unary _ arg => isIntegral arg
  | binary _ left right => isIntegral left && isIntegral right
  | variadic _ args => areIntegral args
  | component arg _ => isIntegral arg
  | foreign _ => false

/-- Whether several formulas are integral. -/
def areIntegral : List Expr → Bool
  | [] => true
  | e :: rest => isIntegral e && areIntegral rest

end

mutual

/-- An integral formula has an integral lowering. -/
theorem lowering_integral : ∀ e : Expr, e.isIntegral = true → e.lowering.Integral
  -- There is no case of something foreign, which is not integral.
  | leaf _, _ => .whole ⟨_, rfl, Code.integral_leaf rfl⟩
  | constant kind element q, integer => .whole ⟨_, rfl, by
    rw [Code.constant]
    split
    · exact Code.integral_leaf rfl
    · exact Code.integral_leaf (of_decide_eq_true integer)⟩
  | scaled q arg, integral => by
    obtain ⟨integer, inner⟩ := Bool.and_eq_true_iff.mp integral
    exact (lowering_integral arg inner).scaled (of_decide_eq_true integer)
  | unary op arg, integral => .whole <| by
    obtain ⟨c, made, own⟩ := (lowering_integral arg integral).code
    rw [made]
    exact own.exists_unary op
  | binary op left right, integral => .whole <| by
    obtain ⟨first, second⟩ := Bool.and_eq_true_iff.mp integral
    obtain ⟨l, made, own⟩ := (lowering_integral left first).code
    obtain ⟨r, made', own'⟩ := (lowering_integral right second).code
    -- A node of integral operands is integral.
    refine ⟨_, by rw [made, made']; rfl, .node rfl fun c inside => ?_⟩
    rcases List.mem_pair.mp inside with rfl | rfl
    · exact own
    · exact own'
  | variadic .sum args, integral => .sum (lowerings_integral args integral)
  | variadic .wedge args, integral => .wedge (lowerings_integral args integral)
  | component arg _, integral => .whole <| by
    obtain ⟨c, made, own⟩ := (lowering_integral arg integral).code
    exact ⟨_, by rw [made]; rfl, .node rfl fun d inside => List.mem_singleton.mp inside ▸ own⟩

/-- Integral formulas have integral lowerings. -/
theorem lowerings_integral : ∀ es : List Expr, areIntegral es = true → ∀ l ∈ lowerings es, l.Integral
  | [], _ => by simp [lowerings]
  | e :: rest, integral => by
    obtain ⟨first, others⟩ := Bool.and_eq_true_iff.mp integral
    exact List.forall_mem_cons.mpr ⟨lowering_integral e first, lowerings_integral rest others⟩

end

end Expr

end Clifford
