import Clifford.Code.Lowering
import Clifford.Proofs.Code.Value

/-! Rewrites of code keep what it computes: like operands of a sum are merged, single operands stand
for themselves, and double reversals cancel. -/

namespace Clifford

namespace Dense

/-- A reversal of a reversal changes nothing. -/
theorem reverse_reverse (x : Dense) : x.reverse.reverse = x := by
  -- The sign of every blade is its own inverse.
  funext b
  have square : (Blade.reversionSign b : Rat) * Blade.reversionSign b = 1 := by
    rw [Blade.reversionSign, Blade.swapSign]
    split <;> norm_num
  rw [reverse, reverse, ← mul_assoc, square, one_mul]

/-- A number passes out of a reversal. -/
theorem reverse_smul (q : Rat) (x : Dense) : reverse (q • x) = q • reverse x := by
  -- The sign of every blade commutes with the number.
  funext b
  exact mul_left_comm _ _ _

/-- The reversal of zero is zero. -/
theorem reverse_zero : reverse 0 = 0 := by
  -- Zero is a multiple of itself by zero.
  simpa using reverse_smul 0 0

/-- The dual of zero is zero. -/
theorem dual_zero (n dim : Nat) : dual n dim 0 = 0 := by
  -- Every coefficient of a dual is a coefficient under a sign.
  funext target
  simp [dual]

end Dense

/-- A sum of at least one vector. -/
theorem VariadicOp.dense_sum (A : Algebra) {xs : List Dense} (nonempty : xs ≠ []) :
    VariadicOp.sum.dense A xs = some xs.sum := by
  -- Sums from the left are sums from the right.
  cases xs with
  | nil => exact absurd rfl nonempty
  | cons x rest =>
    show some (rest.foldl (· + ·) x) = _
    rw [List.sum_eq_foldl, List.foldl_cons, zero_add]

/-- A node that does not divide takes all operands. -/
theorem Head.admits_of_ne {head : Head} (other : head ≠ .binary .divide) (operands : List Code) :
    head.admits operands = true := by
  -- Only two operands are looked at.
  rcases operands with _ | ⟨_, _ | ⟨_, _ | _⟩⟩ <;> simp [admits, other]

variable {A : Algebra} {F : Functions A.dim} {leaves : Nat → Option Dense}

namespace Code

variable (A F leaves) in
/-- Trees of code whose coefficients add up to a vector. -/
inductive Sums : List Code → Dense → Prop
  | nil : Sums [] 0
  | cons {code : Code} {rest : List Code} {x y : Dense} (first : code.value A F leaves = some x)
      (others : Sums rest y) : Sums (code :: rest) (x + y)

namespace Sums

variable {codes others : List Code} {x y : Dense}

/-- Every tree of a sum has coefficients. -/
theorem values (sums : Sums A F leaves codes x) :
    ∃ xs, Code.values A F leaves codes = some xs ∧ xs.sum = x := by
  -- The coefficients are collected tree by tree.
  induction sums with
  | nil => exact ⟨[], rfl, rfl⟩
  | cons first _ ih =>
    obtain ⟨xs, given, rfl⟩ := ih
    exact ⟨_, values_eq_some.mpr (.cons first (values_eq_some.mp given)), List.sum_cons⟩

/-- Sums are joined. -/
theorem append (left : Sums A F leaves codes x) (right : Sums A F leaves others y) :
    Sums A F leaves (codes ++ others) (x + y) := by
  -- The operands of the first sum come first.
  induction left with
  | nil => simpa using right
  | cons first _ ih =>
    rw [add_assoc]
    exact .cons first ih

/-- The order of the operands does not matter. -/
theorem perm (sums : Sums A F leaves codes x) (same : codes.Perm others) :
    Sums A F leaves others x := by
  -- Two neighbours change places at a time.
  induction same generalizing x with
  | nil => exact sums
  | cons code _ ih =>
    obtain _ | ⟨first, rest⟩ := sums
    exact .cons first (ih rest)
  | swap code other rest =>
    obtain _ | ⟨first, _ | ⟨second, later⟩⟩ := sums
    rw [add_left_comm]
    exact .cons second (.cons first later)
  | trans _ _ first second => exact second (first sums)

/-- Operands that vanish can be left out. -/
theorem filter (sums : Sums A F leaves codes x) {keep : Code → Bool}
    (vanish : ∀ code ∈ codes, keep code = false → ∀ y, code.value A F leaves = some y → y = 0) :
    Sums A F leaves (codes.filter keep) x := by
  -- An operand that is left out has contributed zero.
  induction sums with
  | nil => exact .nil
  | @cons code rest y _ first _ ih =>
    have later := ih fun c member => vanish c (List.mem_cons_of_mem _ member)
    rw [List.filter_cons]
    split
    · exact .cons first later
    · rename_i dropped
      rw [vanish code (by simp) (by simpa using dropped) y first, zero_add]
      exact later

end Sums

/-- Code added to the operands that it may be like adds its coefficients. -/
theorem sums_insertLike {code : Code} {y : Dense} (value : code.value A F leaves = some y)
    {codes : List Code} {x : Dense} (sums : Sums A F leaves codes x) :
    ∀ {merged}, insertLike code codes = .ok merged → Sums A F leaves merged (y + x) := by
  -- The operand with the same stem takes the multiplier, and the others stay.
  induction sums with
  | nil =>
    intro merged made
    cases made
    exact .cons value .nil
  | @cons c rest x z first later ih =>
    intro merged made
    rw [insertLike] at made
    split at made
    · rename_i like
      obtain ⟨whole, u, stem, rfl⟩ := value_stem.mp value
      obtain ⟨whole', v, stem', rfl⟩ := value_stem.mp first
      obtain rfl : v = u := by
        rw [like, stem] at stem'
        exact (Option.some.inj stem').symm
      -- Multipliers are whole, so that they are added exactly.
      rw [gatedAdd_eq_ok whole' whole (by decide), Result.ok_bind] at made
      cases made
      have total := value_withScale stem' (whole'.add whole)
      rw [← add_assoc, ← add_smul, add_comm code.scale]
      exact .cons total later
    · obtain ⟨others, inserted, done⟩ := Result.bind_eq_ok.mp made
      cases done
      rw [add_left_comm]
      exact .cons first (ih inserted)

/-- Code added one after the other to what has been collected adds up with it. -/
theorem sums_foldlM_insertLike {codes collected : List Code} {x : Dense}
    (sums : Sums A F leaves codes x) : ∀ {before : List Code} {y : Dense}, Sums A F leaves before y →
      codes.foldlM (fun merged code => insertLike code merged) before = .ok collected →
        Sums A F leaves collected (y + x) := by
  -- What has been collected takes up the coefficients of one tree after the other.
  induction sums with
  | nil =>
    intro before y total folded
    cases folded
    simpa using total
  | cons first _ ih =>
    intro before y total folded
    rw [List.foldlM_cons] at folded
    obtain ⟨next, inserted, rest⟩ := Result.bind_eq_ok.mp folded
    rw [← add_assoc, add_comm y]
    exact ih (sums_insertLike first total inserted) rest

/-- Merged operands have the sum of the operands. -/
theorem sums_mergeLike {codes merged : List Code} {x : Dense} (sums : Sums A F leaves codes x)
    (made : mergeLike codes = .ok merged) : Sums A F leaves merged x := by
  obtain ⟨collected, folded, done⟩ := Result.bind_eq_ok.mp made
  cases done
  have total := sums_foldlM_insertLike sums .nil folded
  rw [zero_add] at total
  -- What is left out at the end has a multiplier of zero, and sorting keeps the sum.
  refine (total.filter fun code _ dropped y value => ?_).perm (List.mergeSort_perm _ _).symm
  obtain ⟨-, z, -, rfl⟩ := value_stem.mp value
  have cancelled : code.scale = 0 := by simpa using dropped
  rw [cancelled, zero_smul]

/-- An operation on operands computes a multiple of what the operator gives. -/
theorem value_gather {op : VariadicOp} {total : Rat} (whole : Dyadic 0 total) {codes : List Code}
    {xs : List Dense} {y : Dense} (given : values A F leaves codes = some xs)
    (dense : op.dense A xs = some y) {code : Code} (made : gather op total codes = .ok code) :
    code.value A F leaves = some (total • y) := by
  -- Without operands an operation gives nothing.
  have each := values_eq_some.mp given
  cases each with
  | nil => cases dense
  | cons first rest =>
    cases rest with
    | nil =>
      -- A single operand stands for itself.
      obtain rfl := Option.some.inj dense
      exact value_rescale first whole made
    | cons second later =>
      cases made
      refine value_node.mpr ⟨whole, Head.admits_of_ne (by simp) _, _, y, given, ?_, rfl⟩
      have length := (values_eq_some.mp given).length_eq
      rw [Head.dense, if_pos length.symm, dense]

/-- The code of an operator of one operand computes what the operator gives. -/
theorem value_unary {op : UnaryOp} {arg code : Code} {x y : Dense}
    (value : arg.value A F leaves = some x) (dense : op.dense A F x = some y)
    (made : Code.unary op arg = .ok code) : code.value A F leaves = some y := by
  -- Unless something is left out, the code is a node over the operand.
  have kept : (node (.unary op) 1 [arg]).value A F leaves = some y :=
    value_node.mpr ⟨.one 0, rfl, [x], y, values_eq_some.mpr (.cons value .nil), dense, one_smul _ _⟩
  rw [Code.unary.eq_def] at made
  split at made
  · split at made
    · rename_i scale _ inner
      -- The two reversions cancel.
      obtain ⟨whole, -, xs, z, given, reversed, rfl⟩ := value_node.mp value
      obtain _ | ⟨first, ⟨⟩⟩ := values_eq_some.mp given
      obtain rfl := Option.some.inj reversed
      obtain rfl := Option.some.inj dense
      rw [value_rescale first whole made, Dense.reverse_smul, Dense.reverse_reverse]
    · cases made
      exact kept
  · split at made
    · rename_i left
      cases made
      obtain ⟨zero, algebraic⟩ := Bool.and_eq_true_iff.mp left
      rw [value]
      obtain rfl := value_of_isZero zero value
      cases op with
      | reverse => rw [← dense, UnaryOp.dense, Dense.reverse_zero]
      | dual => rw [← dense, UnaryOp.dense, Dense.dual_zero]
      | _ => cases algebraic
    · cases made
      exact kept

/-- The code of a constant computes a whole multiple of the constant. -/
theorem value_constant {kind : ConstantKind} {element : Nat} {q : Rat} (whole : Dyadic 0 q)
    {x : Dense} (dense : kind.dense element A.dim = some x) :
    (Code.constant kind element q).value A F leaves = some (q • x) := by
  rw [Code.constant]
  split
  · rename_i vanishing
    -- Zero and multiples by zero are the same code.
    have zero : q • x = 0 := by
      rcases Bool.or_eq_true_iff.mp vanishing with kind | none
      · obtain rfl := of_decide_eq_true kind
        obtain rfl := Option.some.inj dense
        exact smul_zero q
      · rw [of_decide_eq_true none, zero_smul]
    rw [zero]
    exact Code.value_zero
  · exact Code.value_node.mpr ⟨whole, rfl, [], x, rfl, dense, rfl⟩

end Code

end Clifford
