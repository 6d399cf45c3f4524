import Clifford.Proofs.Multivector.Powers
import Clifford.Proofs.Multivector.Unique

/-! Readings: values of power sequences in a space with a bilinear product, which carry over to
entries and multivectors as finitely supported functions of the blade. -/

namespace Clifford

open Finsupp

/-- Values of power sequences, and the product of values. -/
structure Reading (M : Type) [AddCommGroup M] [Module Rat M] where
  value : List Power → M
  mul : M →ₗ[Rat] M →ₗ[Rat] M

namespace Reading

variable {M : Type} [AddCommGroup M] [Module Rat M] (r : Reading M)

instance : SMulCommClass Rat Rat (Nat →₀ M) := SMulCommClass.rat

instance : IsScalarTower Rat Rat (Nat →₀ M) := IsScalarTower.rat

/-- The coefficient of a formal sum on a blade. -/
noncomputable def coordinate {ι : Type} (element : Nat) (index : ι) :
    (Nat →₀ ι →₀ Rat) →ₗ[Rat] Rat := (lapply index).comp (lapply element)

/-- The value of a power sequence on a blade. -/
noncomputable def weight (element : Nat) (powers : List Power) : Nat →₀ M :=
  single element (r.value powers)

/-- The value of a multivector, as a function of the blade. -/
noncomputable def read (a : Multivector) : Nat →₀ M := weightedSum r.weight a.entries

/-- The values of two power sequences multiply to that of their product, if that is known. -/
def Multiplies (ps qs : List Power) : Prop :=
  ∀ rs, mulPowers ps qs = .ok rs → r.value rs = r.mul (r.value ps) (r.value qs)

/-- The sum of monomials without their blade. -/
def sum (ms : List Monomial) : M := (ms.map fun m => m.coefficient • r.value m.powers).sum

/-- A term has its sum of monomials on its blade. -/
theorem weightedSum_term (element : Nat) (ms : List Monomial) :
    weightedSum r.weight (Term.entries ⟨element, ms⟩) = single element (r.sum ms) := by
  induction ms with
  | nil => simp [Term.entries, sum]
  | cons m ms ih =>
    simp only [Term.entries, List.map_cons, weightedSum_cons] at ih ⊢
    rw [ih]
    simp [sum, weight]

/-- The bilinear product of functions of the blade, in which two blades multiply to their symmetric
difference with a factor. -/
noncomputable def twisted (factor : Nat → Nat → Int) :
    (Nat →₀ M) →ₗ[Rat] (Nat →₀ M) →ₗ[Rat] (Nat →₀ M) :=
  lsum Rat fun i => (lsum Rat fun j =>
    (r.mul.compr₂ ((factor i j : Rat) • lsingle (i ^^^ j))).flip).flip

/-- The product of values on single blades. -/
theorem twisted_single (factor : Nat → Nat → Int) (i j : Nat) (x y : M) :
    r.twisted factor (single i x) (single j y) =
      (factor i j : Rat) • single (i ^^^ j) (r.mul x y) := by
  simp [twisted]

section Twisted

variable {r} {factor : Nat → Nat → Int}

/-- A product of three values may be regrouped where the factors of all blades may. -/
theorem twisted_regroup {inner outer inner' outer' : Nat → Nat → Int}
    (values : ∀ x y z, r.mul (r.mul x y) z = r.mul x (r.mul y z))
    (law : ∀ a b c, inner a b * outer (a ^^^ b) c = inner' b c * outer' a (b ^^^ c))
    (x y z : Nat →₀ M) :
    r.twisted outer (r.twisted inner x y) z = r.twisted outer' x (r.twisted inner' y z) := by
  -- Both sides are linear in every factor, so that single blades suffice.
  induction x using Finsupp.induction_linear with
  | zero => simp
  | add x x' left right => simp [left, right]
  | single a u =>
    induction y using Finsupp.induction_linear with
    | zero => simp
    | add y y' left right => simp [left, right]
    | single b v =>
      induction z using Finsupp.induction_linear with
      | zero => simp
      | add z z' left right => simp [left, right]
      | single c w =>
        have law : (inner a b : Rat) * outer (a ^^^ b) c = inner' b c * outer' a (b ^^^ c) := by
          exact_mod_cast law a b c
        simp only [twisted_single, map_smul, LinearMap.smul_apply, smul_smul, law, values,
          Nat.xor_assoc]

/-- Twisted products with the cocycle law are associative. -/
theorem twisted_assoc (values : ∀ x y z, r.mul (r.mul x y) z = r.mul x (r.mul y z))
    (cocycle : ∀ a b c, factor a b * factor (a ^^^ b) c = factor b c * factor a (b ^^^ c))
    (x y z : Nat →₀ M) :
    r.twisted factor (r.twisted factor x y) z = r.twisted factor x (r.twisted factor y z) :=
  twisted_regroup values cocycle x y z

/-- The unit on the scalar blade is neutral from the left. -/
theorem one_twisted {one : M} (value : ∀ x, r.mul one x = x) (unit : ∀ a, factor 0 a = 1)
    (x : Nat →₀ M) : r.twisted factor (single 0 one) x = x := by
  induction x using Finsupp.induction_linear with
  | zero => simp
  | add x x' left right => simp [left, right]
  | single a u => rw [twisted_single, unit, value, Nat.zero_xor, Int.cast_one, one_smul]

/-- The unit on the scalar blade is neutral from the right. -/
theorem twisted_one {one : M} (value : ∀ x, r.mul x one = x) (unit : ∀ a, factor a 0 = 1)
    (x : Nat →₀ M) : r.twisted factor x (single 0 one) = x := by
  induction x using Finsupp.induction_linear with
  | zero => simp
  | add x x' left right => simp [left, right]
  | single a u => rw [twisted_single, unit, value, Nat.xor_zero, Int.cast_one, one_smul]

end Twisted

/-- Entries that represent a product of two lists of entries: they lie in the space, their powers
are products of powers, and their total is the product of the totals. -/
structure Product (dim k : Nat) (mul : (Nat →₀ M) →ₗ[Rat] (Nat →₀ M) →ₗ[Rat] (Nat →₀ M))
    (xs ys entries : List Entry) : Prop where
  bounded : ∀ e ∈ entries, e.element < dim
  dyadic : DyadicEntries k entries
  source : ∀ e ∈ entries, ∃ x ∈ xs, ∃ y ∈ ys,
    mulPowers x.monomial.powers y.monomial.powers = .ok e.monomial.powers
  value : weightedSum r.weight entries = mul (weightedSum r.weight xs) (weightedSum r.weight ys)

namespace Product

variable {r} {dim k : Nat} {mul : (Nat →₀ M) →ₗ[Rat] (Nat →₀ M) →ₗ[Rat] (Nat →₀ M)}
  {xs xs' ys ys' es es' : List Entry}

/-- Nothing represents the products with nothing on the left. -/
theorem nil_left : r.Product dim k mul [] ys [] where
  bounded := by simp
  dyadic := by simp [DyadicEntries]
  source := by simp
  value := by simp

/-- Nothing represents the products with nothing on the right. -/
theorem nil_right : r.Product dim k mul xs [] [] where
  bounded := by simp
  dyadic := by simp [DyadicEntries]
  source := by simp
  value := by simp

/-- Products distribute over more entries on the left. -/
theorem append_left (first : r.Product dim k mul xs ys es)
    (second : r.Product dim k mul xs' ys es') :
    r.Product dim k mul (xs ++ xs') ys (es ++ es') where
  bounded e inside := (List.mem_append.mp inside).elim (first.bounded e) (second.bounded e)
  dyadic e inside := (List.mem_append.mp inside).elim (first.dyadic e) (second.dyadic e)
  source e inside := by
    rcases List.mem_append.mp inside with left | right
    · obtain ⟨x, member, rest⟩ := first.source e left
      exact ⟨x, List.mem_append_left _ member, rest⟩
    · obtain ⟨x, member, rest⟩ := second.source e right
      exact ⟨x, List.mem_append_right _ member, rest⟩
  value := by simp [first.value, second.value]

/-- Products distribute over more entries on the right. -/
theorem append_right (first : r.Product dim k mul xs ys es)
    (second : r.Product dim k mul xs ys' es') :
    r.Product dim k mul xs (ys ++ ys') (es ++ es') where
  bounded e inside := (List.mem_append.mp inside).elim (first.bounded e) (second.bounded e)
  dyadic e inside := (List.mem_append.mp inside).elim (first.dyadic e) (second.dyadic e)
  source e inside := by
    rcases List.mem_append.mp inside with left | right
    · obtain ⟨x, member, y, other, rest⟩ := first.source e left
      exact ⟨x, member, y, List.mem_append_left _ other, rest⟩
    · obtain ⟨x, member, y, other, rest⟩ := second.source e right
      exact ⟨x, member, y, List.mem_append_right _ other, rest⟩
  value := by simp [first.value, second.value]

section Traversal

variable {α β : Type} {part : α → List Entry} {out : β → List Entry} {f : α → Result β}

/-- A traversal of the right factor gathers the products with all of its parts. -/
theorem of_row (parts : List α) {row : List β}
    (each : ∀ t ∈ parts, ∀ y, f t = .ok y → r.Product dim k mul xs (part t) (out y))
    (mapped : parts.mapM f = .ok row) :
    r.Product dim k mul xs (parts.flatMap part) (row.flatMap out) := by
  have pairs := Result.mapM_eq_ok.mp mapped
  clear mapped
  induction pairs with
  | nil => exact nil_right
  | cons first _ ih =>
    rw [List.flatMap_cons, List.flatMap_cons]
    exact (each _ (by simp) _ first).append_right
      (ih fun t inside => each t (List.mem_cons_of_mem _ inside))

/-- A traversal of the left factor gathers the products of all of its parts. -/
theorem of_rows (parts : List α) {rows : List β}
    (each : ∀ s ∈ parts, ∀ y, f s = .ok y → r.Product dim k mul (part s) ys (out y))
    (mapped : parts.mapM f = .ok rows) :
    r.Product dim k mul (parts.flatMap part) ys (rows.flatMap out) := by
  have pairs := Result.mapM_eq_ok.mp mapped
  clear mapped
  induction pairs with
  | nil => exact nil_left
  | cons first _ ih =>
    rw [List.flatMap_cons, List.flatMap_cons]
    exact (each _ (by simp) _ first).append_left
      (ih fun s inside => each s (List.mem_cons_of_mem _ inside))

end Traversal

/-- Collated products still represent the product. -/
theorem of_collate (product : r.Product dim k mul xs ys es) (small : k ≤ exactBits) {c : Multivector}
    (collated : collate es = .ok c) : r.Product dim k mul xs ys c.entries := by
  -- Collating keeps the total, which is that of the product.
  obtain ⟨c', again, dyadic, value⟩ := collate_total r.weight small product.dyadic
    (exists_key_of_collate collated) .identity 1
  obtain rfl : c = c' := by simpa [collated] using again
  obtain ⟨ts, terms, done⟩ := Result.bind_eq_ok.mp collated
  cases done
  have sources := collateTerms_mem terms
  refine ⟨fun e inside => ?_, dyadic, fun e inside => ?_, value.trans product.value⟩
  · obtain ⟨f, given, element, -⟩ := sources e inside
    exact element ▸ product.bounded f given
  · obtain ⟨f, given, -, powers⟩ := sources e inside
    obtain ⟨x, left, y, right, made⟩ := product.source f given
    exact ⟨x, left, y, right, powers ▸ made⟩

/-- A collated product of increasing powers is canonical. -/
theorem canonical (product : r.Product dim k mul xs ys es)
    (left : ∀ x ∈ xs, Increasing x.monomial.powers)
    (right : ∀ y ∈ ys, Increasing y.monomial.powers) {c : Multivector}
    (collated : collate es = .ok c) : c.Canonical := by
  refine collate_canonical (fun e inside => ?_) collated
  obtain ⟨x, member, y, other, made⟩ := product.source e inside
  exact increasing_mulPowers _ _ (left x member) (right y other) made

end Product

end Reading

/-- The product of two power sequences as a formal sum, which is empty where it overflows. -/
noncomputable def formalProduct (ps qs : List Power) : List Power →₀ Rat :=
  match mulPowers ps qs with
  | .ok rs => single rs 1
  | .error _ => 0

namespace Reading

/-- The reading that keeps power sequences as they are. -/
noncomputable def free : Reading (List Power →₀ Rat) where
  value ps := single ps 1
  mul := linearCombination Rat fun ps => linearCombination Rat (formalProduct ps)

/-- Formal sums multiply where power sequences do. -/
theorem multiplies_free (ps qs : List Power) : free.Multiplies ps qs := by
  intro rs product
  simp [free, formalProduct, product]

/-- The coefficients of a formal sum can be read off. -/
noncomputable def freeProbe : Probe free.weight Set.univ where
  read e ps := coordinate e ps
  read_weight e f ps _ qs _ := by
    simp only [weight, free, coordinate, LinearMap.comp_apply, lapply_apply, single_apply]
    by_cases element : f = e <;> by_cases powers : qs = ps <;> simp [element, powers]

end Reading

section Blades

variable {M : Type} [AddCommGroup M] [Module Rat M] (r : Reading M)

/-- The value of terms is gathered term by term. -/
theorem Reading.read_eq_sum (a : Multivector) :
    r.read a = (a.terms.map fun t => single t.element (r.sum t.monomials)).sum := by
  rw [read, Multivector.entries, List.flatMap_def, weightedSum_flatten, List.map_map]
  congr 1
  exact List.map_congr_left fun t _ => r.weightedSum_term t.element t.monomials

/-- A multivector has no value on a blade that it has no term on. -/
theorem Reading.read_of_absent {a : Multivector} {blade : Nat} (absent : blade ∉ a.elements) :
    r.read a blade = 0 := by
  obtain ⟨terms, op, opScale⟩ := a
  rw [read_eq_sum]
  -- Other terms have no value on the blade.
  dsimp only [Multivector.elements] at absent ⊢
  induction terms with
  | nil => rfl
  | cons t rest ih =>
    rw [List.map_cons, List.mem_cons, not_or] at absent
    rw [List.map_cons, List.sum_cons, Finsupp.add_apply, ih absent.2,
      single_eq_of_ne absent.1, add_zero]

/-- The value on the blade of a term is the sum of its monomials. -/
theorem Reading.read_of_term {a : Multivector} (ordered : a.elements.Pairwise (· < ·)) {t : Term}
    (member : t ∈ a.terms) : r.read a t.element = r.sum t.monomials := by
  -- The other terms lie on other blades.
  obtain ⟨terms, op, opScale⟩ := a
  rw [read_eq_sum]
  dsimp only [Multivector.elements] at ordered member ⊢
  induction terms with
  | nil => simp at member
  | cons u rest ih =>
    rw [List.map_cons, List.pairwise_cons] at ordered
    rw [List.map_cons, List.sum_cons, Finsupp.add_apply]
    rcases List.mem_cons.mp member with rfl | later
    · have others : t.element ∉ (Multivector.elements { terms := rest }) := by
        intro inside
        exact lt_irrefl _ (ordered.1 _ inside)
      have none := r.read_of_absent others
      rw [read_eq_sum] at none
      rw [single_eq_same, none, add_zero]
    · have distinct := ordered.1 _ (List.mem_map_of_mem later)
      rw [ih ordered.2 later, single_eq_of_ne distinct.ne', zero_add]

end Blades

end Clifford
