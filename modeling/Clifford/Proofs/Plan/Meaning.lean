import Clifford.Proofs.Plan.Simulation

/-! The meaning of plans: on numbers for the inputs, a plan of compiled code gives the coefficients that
the code computes. -/

namespace Clifford

/-- The coefficient of a blade in the columns of the terms of a multivector, for a batch of one row. -/
def Multivector.readColumns (a : Multivector) (columns : List (List (Option Rat))) (blade : Nat) :
    Option Rat :=
  match (a.elements.zip columns).lookup blade with
  | some [value] => value
  | some _ => none
  | none => some 0

/-- On numbers for its inputs a plan runs, and its outputs have the coefficients of some vectors. -/
def Plan.Gives {dim : Nat} (F : Functions dim) (p : Plan) (numbers : List Rat) (xs : List Dense) :
    Prop :=
  ∃ columns, F.interpretation.run p 1 (numbers.map fun q => [some q]) = .ok columns ∧
    p.outputs.length = xs.length ∧ columns.length = xs.length ∧
      ∀ (i : Nat) a cs x, p.outputs[i]? = some a → columns[i]? = some cs → xs[i]? = some x →
        ∀ blade < dim, a.readColumns cs blade = some (x blade)

variable {A : Algebra} {F : Functions A.dim} {leaves : Nat → Option Dense}
  {symbols : List Multivector} {ρ : Nat → Rat} {ys : List Dense}

/-- The columns of the terms of a multivector read as the coefficients that it denotes. -/
theorem Multivector.Denotes.readColumns {dim : Nat} {F : Functions dim} {bound : Nat}
    {a : Multivector} {x : Dense} (denotes : a.Denotes F ρ bound x) (blade : Nat) :
    a.readColumns (a.terms.map fun t => [some (x t.element)]) blade = some (x blade) := by
  rw [Multivector.readColumns, Functions.zip_terms, Functions.lookup_map]
  by_cases present : blade ∈ a.elements
  · simp [present]
  · simp [present, denotes.absent present]

/-- The columns of several multivectors are the coefficients that they denote on their blades. -/
theorem Functions.mapM_terms {dim : Nat} {F : Functions dim} {bound : Nat}
    {values : Values (Option Rat)} (assigns : values.Assigns ρ bound) {outputs : List Multivector}
    (each : List.Forall₂ (Multivector.Denotes F ρ bound) outputs ys) :
    outputs.mapM (F.arithmetic.terms 1 values) =
      .ok (List.zipWith (fun a x => a.terms.map fun t => [some (x t.element)]) outputs ys) := by
  -- The multivectors are evaluated one by one.
  induction each with
  | nil => rfl
  | cons first _ ih =>
    rw [List.mapM_cons, terms_eq assigns first, ih]
    rfl

/-- The plan of a program gives what its trees compute, where inputs are known. -/
theorem Plan.gives_ofProgram (diagonal : A.metric.isDiagonal = true) {eliminate : Bool}
    {roots : List Code} {numbers : List Rat}
    (given : Code.values A F leaves roots = some ys)
    (leaf : ∀ {index a x}, symbols[index]? = some a → leaves index = some x →
      a.Denotes F (fun id => numbers.getD id 0) numbers.length x ∧ a.HasUnits) {p : Plan}
    (made : Plan.ofProgram A symbols numbers.length (Program.ofCodes eliminate roots) = .ok p) :
    p.Gives F numbers ys := by
  -- The machine runs through the temporaries and then through the outputs.
  obtain ⟨m, run, rest⟩ := Result.bind_eq_ok.mp made
  split at rest
  swap
  · cases rest
  cases rest
  rw [Program.ofCodes, Machine.run_append] at run
  obtain ⟨next, first, later⟩ := Result.bind_eq_ok.mp run
  -- Before its first instruction the machine knows the inputs and nothing else.
  have start : (Machine.start numbers.length).Computes A F leaves symbols
      (Values.assign (fun _ => none) 0 (numbers.map fun q => [some q]))
      (fun id => numbers.getD id 0) [] [] :=
    ⟨.nil, .nil, leaf, _, rfl, .inputs numbers⟩
  have covered : ∀ root ∈ roots, Code.Every (Code.Covered (Sharing.hoisted eliminate roots)) root :=
    fun root => Sharing.covered_of_root
  have valued : ∀ root ∈ roots,
      Code.Every (fun stem => ∃ y, stem.value A F leaves = some y) root := by
    intro root inside
    obtain ⟨i, small, rfl⟩ := List.getElem_of_mem inside
    have each := Code.values_eq_some.mp given
    exact Code.every_value _ (each.get small (each.length_eq ▸ small))
  obtain ⟨ρ₁, between⟩ := Machine.run_temporaries diagonal (fun stem inside => ⟨
    Sharing.every_of_hoisted covered inside,
    Sharing.stem_of_hoisted inside ▸ (Sharing.every_of_hoisted valued inside).stem⟩)
    (List.nil_append _) start first
  obtain ⟨ρ₂, after⟩ := Machine.run_outputs diagonal covered given between later
  rw [List.append_nil] at after
  obtain ⟨values, steps, assigns⟩ := after.steps
  have outputs : List.Forall₂ (Multivector.Denotes F ρ₂ m.nextId) m.stack.reverse ys :=
    List.forall₂_reverse_iff.mp (by rw [List.reverse_reverse]; exact after.stack)
  refine ⟨List.zipWith (fun a x => a.terms.map fun t => [some (x t.element)]) m.stack.reverse ys,
    ?_, outputs.length_eq, ?_, fun i a cs x output column vector blade _ => ?_⟩
  · show (do
      let values ← m.steps.foldlM (F.interpretation.step 1) _
      m.stack.reverse.mapM (F.arithmetic.terms 1 values)) = _
    rw [steps, Result.ok_bind, Functions.mapM_terms assigns outputs]
  · rw [List.length_zipWith, outputs.length_eq, min_self]
  · -- Every output is read off at the assignment that the steps end in.
    rw [List.getElem?_zipWith, output, vector] at column
    cases column
    have denotes : a.Denotes F ρ₂ m.nextId x := by
      obtain ⟨small, rfl⟩ := List.getElem?_eq_some_iff.mp output
      obtain ⟨small', rfl⟩ := List.getElem?_eq_some_iff.mp vector
      exact outputs.get small small'
    exact denotes.readColumns blade

end Clifford
