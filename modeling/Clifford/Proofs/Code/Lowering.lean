import Clifford.Proofs.Code.Rewrite

/-! Lowering preserves the coefficients of formulas: sums and wedges that are flattened into those
around them, and multipliers that are passed on, compute what the operators do. -/

namespace Clifford

variable {A : Algebra} {F : Functions A.dim} {leaves : Nat → Option Dense}

namespace Lowering

variable (A F leaves) in
/-- Factors under a multiplier whose exterior product is a vector. -/
def Factors (factors : Rat × List (Result Code)) (x : Dense) : Prop :=
  ∀ codes, factors.2.mapM id = .ok codes → Dyadic 0 factors.1 ∧
    ∃ xs y, Code.values A F leaves codes = some xs ∧ VariadicOp.wedge.dense A xs = some y ∧
      factors.1 • y = x

/-- The code of an addend under its multiplier. -/
def addend (part : Rat × Result Code) : Result Code := do (← part.2).rescale part.1

variable (A F leaves) in
/-- A lowering computes a vector as code of its own, as addends and as factors. -/
structure Denotes (l : Lowering) (x : Dense) : Prop where
  code : ∀ {code}, l.code = .ok code → code.value A F leaves = some x
  addends : ∀ {q parts codes}, Dyadic 0 q → l.addends q = .ok parts →
    parts.mapM addend = .ok codes → Code.Sums A F leaves codes (q • x)
  factors : ∀ {factors}, l.factors = .ok factors → Factors A F leaves factors x

variable {l : Lowering} {args : List Lowering} {x y : Dense} {xs : List Dense} {q : Rat}

/-- Code that computes a vector does so as a whole. -/
theorem Denotes.whole {code : Result Code}
    (value : ∀ {c}, code = .ok c → c.value A F leaves = some x) :
    (whole code).Denotes A F leaves x where
  code := value
  addends dyadic split mapped := by
    -- The only addend is the code itself.
    cases split
    obtain _ | ⟨first, ⟨⟩⟩ := Result.mapM_eq_ok.mp mapped
    obtain ⟨c, made, scaled⟩ := Result.bind_eq_ok.mp first
    have sums := Code.Sums.cons (Code.value_rescale (value made) dyadic scaled) .nil
    rwa [add_zero] at sums
  factors split := by
    cases split
    intro codes mapped
    obtain _ | ⟨first, ⟨⟩⟩ := Result.mapM_eq_ok.mp mapped
    exact ⟨.one 0, [x], x, Code.values_eq_some.mpr (.cons (value first) .nil), rfl, one_smul _ _⟩

/-- A whole multiple computes the multiple. -/
theorem Denotes.scaled (denotes : l.Denotes A F leaves x) (whole : Dyadic 0 q) :
    (l.scaled q).Denotes A F leaves (q • x) where
  code made := by
    -- The code of the formula is rescaled.
    obtain ⟨c, first, rescaled⟩ := Result.bind_eq_ok.mp made
    exact Code.value_rescale (denotes.code first) whole rescaled
  addends dyadic split mapped := by
    -- The multiplier joins the one from outside.
    obtain ⟨p, product, rest⟩ := Result.bind_eq_ok.mp split
    rw [gatedMul_eq_ok dyadic whole (by decide)] at product
    cases product
    rw [smul_smul]
    exact denotes.addends (dyadic.mul whole) rest mapped
  factors split := by
    obtain ⟨⟨total, parts⟩, inner, rest⟩ := Result.bind_eq_ok.mp split
    obtain ⟨p, product, done⟩ := Result.bind_eq_ok.mp rest
    cases done
    intro codes mapped
    obtain ⟨dyadic, xs, y, given, dense, rfl⟩ := denotes.factors inner codes mapped
    rw [gatedMul_eq_ok whole dyadic (by decide)] at product
    cases product
    exact ⟨whole.mul dyadic, xs, y, given, dense, mul_smul _ _ _⟩

/-- The addends of several lowerings add up to the sum of their multiples. -/
theorem sums_addends (denote : List.Forall₂ (Denotes A F leaves) args xs) (whole : Dyadic 0 q)
    {parts : List (List (Rat × Result Code))} (split : args.mapM (fun l => l.addends q) = .ok parts)
    {codes : List Code} (mapped : parts.flatten.mapM addend = .ok codes) :
    Code.Sums A F leaves codes (q • xs.sum) := by
  -- The addends stand one lowering after the other.
  induction denote generalizing parts codes with
  | nil =>
    cases split
    cases mapped
    rw [List.sum_nil, smul_zero]
    exact .nil
  | cons first _ ih =>
    obtain _ | ⟨head, rest⟩ := Result.mapM_eq_ok.mp split
    rw [List.flatten_cons, List.mapM_append] at mapped
    obtain ⟨left, leftMapped, later⟩ := Result.bind_eq_ok.mp mapped
    obtain ⟨right, rightMapped, done⟩ := Result.bind_eq_ok.mp later
    cases done
    rw [List.sum_cons, smul_add]
    exact (first.addends whole head leftMapped).append
      (ih (Result.mapM_eq_ok.mpr rest) rightMapped)

/-- The code of a sum computes what its addends add up to. -/
theorem value_sumCode {parts : List (Rat × Result Code)}
    (sums : ∀ {codes}, parts.mapM addend = .ok codes → Code.Sums A F leaves codes x) {code : Code}
    (made : sumCode parts = .ok code) : code.value A F leaves = some x := by
  -- The addends are rescaled before anything else happens to them.
  obtain ⟨operands, mapped, rest⟩ := Result.bind_eq_ok.mp made
  obtain ⟨merged, collected, gathered⟩ := Result.bind_eq_ok.mp rest
  -- Zeros are left out, and what is alike is merged.
  have total := Code.sums_mergeLike ((sums mapped).filter fun code _ dropped y value =>
    Code.value_of_isZero (by simpa using dropped) value) collected
  obtain ⟨xs, given, rfl⟩ := total.values
  by_cases empty : merged = []
  · rw [empty] at gathered given
    cases gathered
    cases given
    exact Code.value_zero
  · have nonempty : xs ≠ [] := by
      rintro rfl
      exact empty (List.length_eq_zero_iff.mp (Code.values_eq_some.mp given).length_eq)
    rw [Code.value_gather (.one 0) given (VariadicOp.dense_sum A nonempty) gathered, one_smul]

/-- A sum computes the sum. -/
theorem Denotes.sum (denote : List.Forall₂ (Denotes A F leaves) args xs) :
    (Lowering.sum args).Denotes A F leaves xs.sum := by
  -- As addends, the operands pass the multiplier on; the code is that of the addends under one.
  have split {q : Rat} {parts : List (Rat × Result Code)} {codes : List Code} (whole : Dyadic 0 q)
      (joined : (Lowering.sum args).addends q = Except.ok parts)
      (mapped : parts.mapM addend = Except.ok codes) :
      Code.Sums A F leaves codes (q • xs.sum) := by
    obtain ⟨lists, each, done⟩ := Result.bind_eq_ok.mp joined
    cases done
    exact sums_addends denote whole each mapped
  have value {c : Code} (made : (Lowering.sum args).code = .ok c) :
      c.value A F leaves = some xs.sum := by
    obtain ⟨parts, joined, rest⟩ := Result.bind_eq_ok.mp made
    refine value_sumCode (fun mapped => ?_) rest
    simpa using split (.one 0) joined mapped
  exact ⟨value, split, (Denotes.whole value).factors⟩

/-- Exterior products of factors are joined. -/
theorem dense_append (diagonal : A.metric.isDiagonal = true) {ys : List Dense}
    (left : VariadicOp.wedge.dense A xs = some x) (right : VariadicOp.wedge.dense A ys = some y) :
    VariadicOp.wedge.dense A (xs ++ ys) = some (.product .exterior A.metric x y) := by
  -- The factors from the right are multiplied first, which is the same.
  have associative : Std.Associative (VariadicOp.wedge.combineDense A) :=
    ⟨Dense.product_assoc diagonal (.inr rfl)⟩
  obtain _ | ⟨first, xs⟩ := xs
  · cases left
  obtain _ | ⟨second, ys⟩ := ys
  · cases right
  obtain rfl := Option.some.inj left
  obtain rfl := Option.some.inj right
  refine congrArg some ?_
  rw [List.append_eq, List.foldl_append, List.foldl_cons]
  exact List.foldl_assoc

/-- An exterior product vanishes with any of its factors. -/
theorem dense_of_zero (zero : 0 ∈ xs) (dense : VariadicOp.wedge.dense A xs = some x) : x = 0 := by
  obtain _ | ⟨first, rest⟩ := xs
  · cases dense
  obtain rfl := Option.some.inj dense
  clear dense
  -- Once the product is zero it stays so.
  induction rest generalizing first with
  | nil => exact (List.mem_singleton.mp zero).symm
  | cons second rest ih =>
    refine ih _ ?_
    rcases List.mem_cons.mp zero with rfl | later
    · rw [VariadicOp.combineDense, Dense.zero_product]
      exact List.mem_cons_self
    · rcases List.mem_cons.mp later with rfl | others
      · rw [VariadicOp.combineDense, Dense.product_zero]
        exact List.mem_cons_self
      · exact List.mem_cons_of_mem _ others

/-- Joined factors compute the exterior product. -/
theorem Factors.join (diagonal : A.metric.isDiagonal = true)
    {joined result : Rat × List (Result Code)}
    (before : Factors A F leaves joined x) (denotes : l.Denotes A F leaves y)
    (made : joinFactors joined l = .ok result) :
    Factors A F leaves result (.product .exterior A.metric x y) := by
  -- The multipliers are multiplied and the factors stand one behind the other.
  obtain ⟨⟨total, parts⟩, split, rest⟩ := Result.bind_eq_ok.mp made
  obtain ⟨q, product, done⟩ := Result.bind_eq_ok.mp rest
  cases done
  intro codes mapped
  rw [List.mapM_append] at mapped
  obtain ⟨left, leftMapped, later⟩ := Result.bind_eq_ok.mp mapped
  obtain ⟨right, rightMapped, done⟩ := Result.bind_eq_ok.mp later
  cases done
  obtain ⟨whole, xs, u, given, dense, rfl⟩ := before left leftMapped
  obtain ⟨whole', ys, v, given', dense', rfl⟩ := denotes.factors split right rightMapped
  rw [gatedMul_eq_ok whole whole' (by decide)] at product
  cases product
  refine ⟨whole.mul whole', xs ++ ys, _, ?_, dense_append diagonal dense dense', ?_⟩
  · exact Code.values_eq_some.mpr
      (List.rel_append (Code.values_eq_some.mp given) (Code.values_eq_some.mp given'))
  · rw [Dense.smul_product, Dense.product_smul, mul_smul]

/-- The factors of a lowering come first in a product. -/
theorem Factors.start (denotes : l.Denotes A F leaves x) {result : Rat × List (Result Code)}
    (made : joinFactors (1, []) l = .ok result) : Factors A F leaves result x := by
  -- There is nothing in front of the factors but a multiplier of one.
  obtain ⟨⟨total, parts⟩, split, rest⟩ := Result.bind_eq_ok.mp made
  obtain ⟨q, product, done⟩ := Result.bind_eq_ok.mp rest
  cases done
  intro codes mapped
  obtain ⟨whole, others⟩ := denotes.factors split codes mapped
  rw [gatedMul_eq_ok (.one 0) whole (by decide), one_mul] at product
  cases product
  exact ⟨whole, others⟩

/-- Factors that several lowerings are joined to compute the exterior product from the left. -/
theorem Factors.joinAll (diagonal : A.metric.isDiagonal = true)
    (denote : List.Forall₂ (Denotes A F leaves) args xs) :
    ∀ {joined result : Rat × List (Result Code)} {x}, Factors A F leaves joined x →
      args.foldlM joinFactors joined = .ok result →
        Factors A F leaves result (xs.foldl (VariadicOp.wedge.combineDense A) x) := by
  -- The lowerings are joined in the order in which their vectors are multiplied.
  induction denote with
  | nil =>
    intro joined result x before folded
    cases folded
    exact before
  | cons first _ ih =>
    intro joined result x before folded
    rw [List.foldlM_cons] at folded
    obtain ⟨next, step, rest⟩ := Result.bind_eq_ok.mp folded
    exact ih (before.join diagonal first step) rest

/-- The factors of several lowerings compute the exterior product of all of them. -/
theorem wedge_factors (diagonal : A.metric.isDiagonal = true)
    (denote : List.Forall₂ (Denotes A F leaves) args xs)
    (dense : VariadicOp.wedge.dense A xs = some x) {result : Rat × List (Result Code)}
    (made : args.foldlM joinFactors (1, []) = .ok result) : Factors A F leaves result x := by
  cases denote with
  | nil => cases dense
  | cons first rest =>
    -- The first factors start the product, so that there is none of no factors.
    obtain rfl := Option.some.inj dense
    rw [List.foldlM_cons] at made
    obtain ⟨next, step, folded⟩ := Result.bind_eq_ok.mp made
    exact .joinAll diagonal rest (.start first step) folded

/-- The code of a wedge computes what its factors multiply to. -/
theorem value_wedgeCode {total : Rat} {parts : List (Result Code)}
    (factors : Factors A F leaves (total, parts) x) {code : Code}
    (made : wedgeCode total parts = .ok code) : code.value A F leaves = some x := by
  -- The operands are the code of the bare factors.
  obtain ⟨operands, mapped, rest⟩ := Result.bind_eq_ok.mp made
  obtain ⟨whole, xs, y, given, dense, rfl⟩ := factors operands mapped
  split at rest
  · rename_i vanishing
    cases rest
    -- The operand that is zero makes the product zero.
    have zero : 0 ∈ xs := by
      obtain ⟨c, member, isZero⟩ := List.any_eq_true.mp vanishing
      obtain ⟨i, inside, rfl⟩ := List.getElem_of_mem member
      have each := Code.values_eq_some.mp given
      have value := each.get inside (each.length_eq ▸ inside)
      rw [← Code.value_of_isZero isZero value]
      exact List.get_mem _ _
    rw [dense_of_zero zero dense, smul_zero]
    exact Code.value_zero
  · exact Code.value_gather whole given dense rest

/-- A wedge computes the exterior product. -/
theorem Denotes.wedge (diagonal : A.metric.isDiagonal = true)
    (denote : List.Forall₂ (Denotes A F leaves) args xs)
    (dense : VariadicOp.wedge.dense A xs = some x) :
    (Lowering.wedge args).Denotes A F leaves x := by
  -- The code is that of the joined factors; in a sum the wedge is one addend.
  have value {c : Code} (made : (Lowering.wedge args).code = .ok c) :
      c.value A F leaves = some x := by
    obtain ⟨⟨total, parts⟩, folded, rest⟩ := Result.bind_eq_ok.mp made
    exact value_wedgeCode (wedge_factors diagonal denote dense folded) rest
  exact ⟨value, (Denotes.whole value).addends, wedge_factors diagonal denote dense⟩

end Lowering

namespace Expr

/-- Whether a formula lowers to code whose multiplier is one or minus one, unless it fails to. -/
def hasUnitScale (e : Expr) : Bool :=
  match e.lower with
  | .ok code => code.scale = 1 || code.scale = -1
  | .error _ => true

mutual

/-- Whether all numbers in a formula are whole, and all divisors lower to a unit multiplier. -/
def isExact : Expr → Bool
  | leaf _ => true
  | constant _ _ q => q.den = 1
  | scaled q arg => q.den = 1 && isExact arg
  | unary _ arg => isExact arg
  | binary op left right =>
    isExact left && isExact right && (op ≠ .divide || right.hasUnitScale)
  | variadic _ args => areExact args
  | component arg _ => isExact arg
  | foreign _ => true

/-- Whether several formulas are exact. -/
def areExact : List Expr → Bool
  | [] => true
  | e :: rest => isExact e && areExact rest

end

/-- The code of an operator of two operands computes what the operator gives. -/
theorem value_binary {op : BinaryOp} {left right : Expr} {x y z : Dense}
    (exact : (op ≠ .divide || right.hasUnitScale) = true)
    (denotesLeft : left.lowering.Denotes A F leaves x)
    (denotesRight : right.lowering.Denotes A F leaves y) (dense : op.dense A x y = some z)
    {code : Code} (made : (Expr.binary op left right).lowering.code = .ok code) :
    code.value A F leaves = some z := by
  -- The code is a node over the code of both operands.
  obtain ⟨l, first, rest⟩ := Result.bind_eq_ok.mp made
  obtain ⟨r, second, done⟩ := Result.bind_eq_ok.mp rest
  cases done
  refine Code.value_node.mpr ⟨.one 0, ?_, [x, y], z, ?_, dense, one_smul _ _⟩
  · -- A divisor has the multiplier that it lowers to.
    rw [hasUnitScale, lower, second] at exact
    cases op with
    | divide => simpa [Head.admits] using exact
    | _ => rfl
  · exact Code.values_eq_some.mpr
      (.cons (denotesLeft.code first) (.cons (denotesRight.code second) .nil))

mutual

/-- A formula lowers to what computes its coefficients. -/
theorem lowering_denotes (diagonal : A.metric.isDiagonal = true) : ∀ (e : Expr),
    e.isExact = true → ∀ {x}, e.value A F leaves = some x → e.lowering.Denotes A F leaves x
  -- What is neither a sum, a wedge nor a multiple enters its surroundings as a whole.
  | leaf index, _, x, value => by
    refine .whole fun made => ?_
    cases made
    exact Code.value_node.mpr ⟨.one 0, rfl, [], x, rfl, value, one_smul _ _⟩
  | constant kind element q, exact, x, value => by
    obtain ⟨y, dense, done⟩ := Option.bind_eq_some_iff.mp value
    cases done
    refine .whole fun made => ?_
    cases made
    exact Code.value_constant (Dyadic.zero_iff.mpr (of_decide_eq_true exact)) dense
  | scaled q arg, exact, x, value => by
    obtain ⟨whole, inner⟩ := Bool.and_eq_true_iff.mp exact
    obtain ⟨y, given, done⟩ := Option.bind_eq_some_iff.mp value
    cases done
    have operand := lowering_denotes diagonal arg inner given
    exact operand.scaled (Dyadic.zero_iff.mpr (of_decide_eq_true whole))
  | unary op arg, exact, x, value => by
    obtain ⟨y, given, dense⟩ := Option.bind_eq_some_iff.mp value
    refine .whole fun made => ?_
    obtain ⟨c, first, rest⟩ := Result.bind_eq_ok.mp made
    exact Code.value_unary ((lowering_denotes diagonal arg exact given).code first) dense rest
  | binary op left right, exact, x, value => by
    obtain ⟨operands, divisor⟩ := Bool.and_eq_true_iff.mp exact
    obtain ⟨exactLeft, exactRight⟩ := Bool.and_eq_true_iff.mp operands
    obtain ⟨y, first, rest⟩ := Option.bind_eq_some_iff.mp value
    obtain ⟨z, second, dense⟩ := Option.bind_eq_some_iff.mp rest
    -- Exact formulas divide only by what has a multiplier of one or minus one.
    exact .whole (value_binary divisor (lowering_denotes diagonal left exactLeft first)
      (lowering_denotes diagonal right exactRight second) dense)
  | variadic op args, exact, x, value => by
    obtain ⟨xs, given, dense⟩ := Option.bind_eq_some_iff.mp value
    have denote := lowerings_denote diagonal args exact given
    cases op with
    | sum =>
      -- A sum of nothing has no coefficients.
      have nonempty : xs ≠ [] := by
        rintro rfl
        cases dense
      obtain rfl := Option.some.inj ((VariadicOp.dense_sum A nonempty).symm.trans dense)
      exact .sum denote
    | wedge => exact .wedge diagonal denote dense
  | component arg element, exact, x, value => by
    obtain ⟨y, given, done⟩ := Option.bind_eq_some_iff.mp value
    cases done
    refine .whole fun made => ?_
    obtain ⟨c, first, rest⟩ := Result.bind_eq_ok.mp made
    cases rest
    have operand := (lowering_denotes diagonal arg exact given).code first
    exact Code.value_node.mpr
      ⟨.one 0, rfl, [y], _, Code.values_eq_some.mpr (.cons operand .nil), rfl, one_smul _ _⟩
  | foreign _, _, _, value => by cases value

/-- Several formulas lower to what computes their coefficients. -/
theorem lowerings_denote (diagonal : A.metric.isDiagonal = true) : ∀ (es : List Expr),
    areExact es = true → ∀ {xs}, values A F leaves es = some xs →
      List.Forall₂ (Lowering.Denotes A F leaves) (lowerings es) xs
  | [], _, xs, value => by
    cases value
    exact .nil
  | e :: rest, exact, xs, value => by
    obtain ⟨first, later⟩ := Bool.and_eq_true_iff.mp exact
    obtain ⟨y, given, others⟩ := Option.bind_eq_some_iff.mp value
    obtain ⟨ys, givenRest, done⟩ := Option.bind_eq_some_iff.mp others
    cases done
    exact .cons (lowering_denotes diagonal e first given)
      (lowerings_denote diagonal rest later givenRest)

end

/-- The code of several formulas computes their coefficients. -/
theorem value_lower (diagonal : A.metric.isDiagonal = true) {roots : List Expr} {codes : List Code}
    (lowered : roots.mapM Expr.lower = .ok codes) (exact : areExact roots = true) {xs : List Dense}
    (value : values A F leaves roots = some xs) :
    List.Forall₂ (fun code x => code.value A F leaves = some x) codes xs := by
  -- The formulas are lowered one by one.
  have made := Result.mapM_eq_ok.mp lowered
  induction made generalizing xs with
  | nil =>
    cases value
    exact .nil
  | @cons e code rest codes first others ih =>
    obtain ⟨exactFirst, exactRest⟩ := Bool.and_eq_true_iff.mp exact
    obtain ⟨y, given, later⟩ := Option.bind_eq_some_iff.mp value
    obtain ⟨ys, givenRest, done⟩ := Option.bind_eq_some_iff.mp later
    cases done
    exact .cons ((lowering_denotes diagonal e exactFirst given).code first)
      (ih (Result.mapM_eq_ok.mpr others) exactRest givenRest)

end Expr

end Clifford
