import Clifford.Proofs.Multivector.PartProduct
import Clifford.Proofs.Multivector.Scaling
import Clifford.Proofs.Rational.ErrorBound

/-! Projections on single blades and on grades: they multiply every coefficient by one, through the gate.
So they are exact, and their sums give the multivector back, where the gate keeps the coefficients. -/

namespace Clifford

open Result

instance : DecidablePred GateKeeps := fun x => inferInstanceAs (Decidable (gate x = .ok x))

/-- The gate keeps a number exactly where the product with one is the number itself. -/
theorem gatedMul_one_eq_self {q : Rat} : gatedMul q 1 = .ok q ↔ GateKeeps q := by
  rw [gatedMul, mul_one, GateKeeps]

/-- Monomials that stand in for others, with the same powers and coefficients within the error of the
gate. -/
def Monomial.Near (m n : Monomial) : Prop := n.powers = m.powers ∧ WithinGate m.coefficient n.coefficient

/-- A term that stands in for another one, on the same blade and monomial by monomial. -/
def Term.Near (t u : Term) : Prop :=
  u.element = t.element ∧ List.Forall₂ Monomial.Near t.monomials u.monomials

namespace Term

variable {t u : Term} {q : Rat} {ts us : List Term}

/-- A multiple of a term is on the same blade. -/
theorem element_scaled (made : t.scaled q = .ok u) : u.element = t.element := by
  -- A multiple changes the monomials alone.
  obtain ⟨ns, -, done⟩ := bind_eq_ok.mp made
  cases done
  rfl

/-- A term is its own multiple by one exactly where the gate keeps all its coefficients. -/
theorem scaled_one_eq_self : t.scaled 1 = .ok t ↔ ∀ m ∈ t.monomials, GateKeeps m.coefficient := by
  -- A traversal gives its own list where it gives every entry back.
  have each : Multivector.scaleMonomials 1 t.monomials = .ok t.monomials ↔
      ∀ m ∈ t.monomials, GateKeeps m.coefficient := by
    rw [Multivector.scaleMonomials, mapM_eq_ok, List.forall₂_same]
    refine forall₂_congr fun m _ => ?_
    obtain ⟨q, powers⟩ := m
    rw [← gatedMul_one_eq_self]
    cases gatedMul q 1 <;> simp
  obtain ⟨element, ms⟩ := t
  rw [← each, Term.scaled]
  cases Multivector.scaleMonomials 1 ms <;> simp

/-- The multiple of a term by one is near it. -/
theorem near_of_scaled_one (made : t.scaled 1 = .ok u) : t.Near u := by
  obtain ⟨ns, scaled, done⟩ := bind_eq_ok.mp made
  cases done
  -- Monomials are copied one by one, and each product is one step of the gate.
  refine ⟨rfl, (mapM_eq_ok.mp scaled).imp fun m n product => ?_⟩
  obtain ⟨p, gated, done⟩ := bind_eq_ok.mp product
  cases done
  rw [gatedMul, mul_one] at gated
  exact ⟨rfl, (gateStep_of_gate gated).withinGate⟩

/-- Multiples of the terms on some blades are those of all terms that are on these blades. -/
theorem mapM_scaled_filter (chosen : Nat → Bool) (made : ts.mapM (Term.scaled q) = .ok us) :
    (ts.filter (chosen ·.element)).mapM (Term.scaled q) = .ok (us.filter (chosen ·.element)) := by
  have pairs := mapM_eq_ok.mp made
  rw [mapM_eq_ok]
  -- A term and its multiple are chosen together, since they are on one blade.
  induction pairs with
  | nil => exact .nil
  | cons first rest ih =>
    have same := element_scaled first
    rw [List.filter_cons, List.filter_cons, same]
    split
    · exact .cons first (ih (mapM_eq_ok.mpr rest))
    · exact ih (mapM_eq_ok.mpr rest)

/-- Terms on distinct blades hold one on each of their blades. -/
theorem filter_element (distinct : (ts.map (·.element)).Nodup) (member : t ∈ ts) :
    ts.filter (fun s => decide (s.element = t.element)) = [t] := by
  -- Either the first term is the one, or it is dropped for being on another blade.
  induction ts with
  | nil => cases member
  | cons s rest ih =>
    obtain ⟨other, distinct⟩ := List.nodup_cons.mp distinct
    have apart {r : Term} (inside : r ∈ rest) : r.element ≠ s.element := fun same =>
      other (List.mem_map.mpr ⟨r, inside, same⟩)
    rcases List.mem_cons.mp member with rfl | later
    · -- The terms behind this one are on other blades.
      rw [List.filter_cons, if_pos (by simp),
        List.filter_eq_nil_iff.mpr fun r inside => by simpa using apart inside]
    · rw [List.filter_cons, if_neg (by simpa using (apart later).symm), ih distinct later]

end Term

namespace Multivector

/-- The terms on some blades. -/
def restricted (a : Multivector) (chosen : Nat → Bool) : Multivector :=
  { a with terms := a.terms.filter (chosen ·.element) }

/-- The terms on some blades, with every coefficient multiplied by one. -/
def copied (a : Multivector) (chosen : Nat → Bool) : Result Multivector := do
  return { a with terms := ← (a.terms.filter (chosen ·.element)).mapM (Term.scaled 1) }

/-- The terms on a blade. -/
def onBlade (a : Multivector) (element : Nat) : Multivector := a.restricted (· = element)

/-- The sum of the parts of all grades of a space. -/
def sumOfGrades (a : Multivector) (n : Nat) : Result Multivector :=
  (List.range (n + 1)).foldlM (fun sum (grade : Nat) => do sum.add (← a.selectGrade grade)) .zero

/-- The sum of the projections on all blades of a space. -/
def sumOfBlades (a : Multivector) (dim : Nat) : Result Multivector :=
  (List.range dim).foldlM (fun sum element => do sum.add (← a.extract element)) .zero

/-- A multivector that stands in for another one term by term. -/
def Near (a b : Multivector) : Prop :=
  List.Forall₂ Term.Near a.terms b.terms ∧ b.op = a.op ∧ b.opScale = a.opScale

variable {a c : Multivector}

/-- All terms are on some blade. -/
theorem restricted_all : a.restricted (fun _ => true) = a := by rw [restricted, List.filter_true]

section Copy

/-- A copy of a term on its blade is its multiple by one. -/
theorem copyTerm_one (t : Term) : copyTerm t 1 t.element = do return [← t.scaled 1] := by
  rw [copyTerm, if_neg one_ne_zero, Term.scaled, bind_assoc]
  rfl

/-- The part of one grade is a copy of the terms on blades of this grade. -/
theorem selectGrade_eq_copied (grade : Nat) :
    a.selectGrade grade = a.copied (Blade.grade · = grade) := by
  have chosen : (a.terms.filter fun t => (Blade.grade t.element : Int) = grade) =
      a.terms.filter fun t => decide (Blade.grade t.element = grade) :=
    List.filter_congr fun t _ => by simp
  -- Copies are lists of one term, which are put together.
  have flat (ts : List Term) : (do return (← ts.mapM fun t => copyTerm t 1 t.element).flatten) =
      ts.mapM (Term.scaled 1) := by
    induction ts with
    | nil => rfl
    | cons t rest ih =>
      rw [List.mapM_cons, List.mapM_cons, copyTerm_one, ← ih]
      cases t.scaled 1 with
      | error cause => rfl
      | ok u =>
        cases rest.mapM fun t => copyTerm t 1 t.element with
        | error cause => rfl
        | ok us => rfl
  rw [copied, ← flat, selectGrade, chosen, bind_assoc]
  rfl

/-- A projection on a blade is a copy of the term there. -/
theorem extract_eq_copied (ordered : a.elements.Pairwise (· < ·)) (element : Nat) :
    a.extract element = a.copied (· = element) := by
  rw [extract, copied]
  by_cases present : ∃ t ∈ a.terms, t.element = element
  · -- The search finds the term, which is the only one on its blade.
    obtain ⟨t, member, rfl⟩ := present
    rw [searchFrom_elements ordered member, Term.filter_element (ordered.imp ne_of_lt) member,
      List.mapM_cons, List.mapM_nil]
    simp only [if_true, copyTerm_one]
    cases t.scaled 1 <;> rfl
  · -- Wherever the search ends, the term there is on another blade.
    have none : a.terms.filter (fun t => decide (t.element = element)) = [] :=
      List.filter_eq_nil_iff.mpr fun t member => by simpa using fun same => present ⟨t, member, same⟩
    rw [none]
    split
    · rename_i t found
      rw [if_neg fun same => present ⟨t, List.mem_of_getElem? found, same⟩]
      rfl
    · rfl

/-- A copy is exact where the gate keeps every coefficient that is copied. -/
theorem copied_eq_iff (a : Multivector) (chosen : Nat → Bool) :
    a.copied chosen = .ok (a.restricted chosen) ↔
      ∀ e ∈ a.entries, chosen e.element = true → GateKeeps e.monomial.coefficient := by
  -- Only the terms can differ.
  have terms : a.copied chosen = .ok (a.restricted chosen) ↔
      (a.terms.filter (chosen ·.element)).mapM (Term.scaled 1) =
        .ok (a.terms.filter (chosen ·.element)) := by
    rw [copied, restricted]
    cases (a.terms.filter (chosen ·.element)).mapM (Term.scaled 1) with
    | error cause => simp
    | ok us => simp
  rw [terms, mapM_eq_ok, List.forall₂_same, forall_entries]
  simp only [List.mem_filter, Term.scaled_one_eq_self]
  exact forall_congr' fun t => ⟨fun each member m monomial inside => each ⟨member, inside⟩ m monomial,
    fun each both m monomial => each both.1 m monomial both.2⟩

/-- In the range of doubles there is a copy, and it is near what it is a copy of. -/
theorem exists_copied (range : ∀ e ∈ a.entries, |e.monomial.coefficient| ≤ 2 ^ 1000)
    (chosen : Nat → Bool) : ∃ b, a.copied chosen = .ok b ∧ (a.restricted chosen).Near b := by
  -- All terms have a copy, from which those on the chosen blades are taken.
  obtain ⟨us, scaled⟩ := exists_scaleTerms (q := 1) fun e inside => by
    simpa only [mul_one] using range e inside
  have terms := Term.mapM_scaled_filter chosen scaled
  refine ⟨{ a with terms := us.filter (chosen ·.element) }, by rw [copied, terms]; rfl, ?_⟩
  exact ⟨(mapM_eq_ok.mp terms).imp fun _ _ => Term.near_of_scaled_one, rfl, rfl⟩

end Copy

section Merge

variable {u : Term} {ss ts us : List Term}

/-- A term on a lower blade than those of the other list comes first. -/
theorem mergeTerms_cons_left (below : ∀ t ∈ ts, u.element < t.element) :
    mergeTerms (u :: ss) ts = do return u :: (← mergeTerms ss ts) := by
  -- The merge compares the first blades alone.
  cases ts with
  | nil =>
    rw [mergeTerms]
    · cases ss with
      | nil => rw [mergeTerms]; rfl
      | cons s rest => rw [mergeTerms]; rfl; simp
    · simp
  | cons t rest => rw [mergeTerms, if_pos (below t List.mem_cons_self)]

/-- A term of the other list on a lower blade than those of the first comes first. -/
theorem mergeTerms_cons_right (below : ∀ s ∈ ss, u.element < s.element) :
    mergeTerms ss (u :: ts) = do return u :: (← mergeTerms ss ts) := by
  cases ss with
  | nil => rw [mergeTerms, mergeTerms]; rfl
  | cons s rest =>
    have less := below s List.mem_cons_self
    rw [mergeTerms, if_neg less.not_gt, if_pos less]

/-- The terms on disjoint sets of blades merge into those on either of them. -/
theorem mergeTerms_filter (first second : Nat → Bool)
    (ordered : (us.map (·.element)).Pairwise (· < ·))
    (apart : ∀ u ∈ us, ¬ (first u.element = true ∧ second u.element = true)) :
    mergeTerms (us.filter (first ·.element)) (us.filter (second ·.element)) =
      .ok (us.filter fun u => first u.element || second u.element) := by
  -- The terms are in order, so that the merge passes each of them on from the side that has it.
  induction us with
  | nil =>
    rw [List.filter_nil, List.filter_nil, mergeTerms]
    rfl
  | cons u rest ih =>
    obtain ⟨least, ordered⟩ := List.pairwise_cons.mp ordered
    obtain ⟨own, apart⟩ := List.forall_mem_cons.mp apart
    have below (choice : Nat → Bool) : ∀ t ∈ rest.filter (choice ·.element), u.element < t.element :=
      fun t inside => least _ (List.mem_map_of_mem (List.mem_filter.mp inside).1)
    -- The lowest term is on one side at most.
    cases left : first u.element with
    | true =>
      have right : second u.element = false := by simpa [left] using own
      simp only [List.filter_cons, left, right, Bool.true_or, if_true, Bool.false_eq_true, if_false]
      rw [mergeTerms_cons_left (below second), ih ordered apart]
      rfl
    | false =>
      cases right : second u.element with
      | true =>
        simp only [List.filter_cons, left, right, Bool.or_true, if_true, Bool.false_eq_true, if_false]
        rw [mergeTerms_cons_right (below first), ih ordered apart]
        rfl
      | false =>
        simp only [List.filter_cons, left, right, Bool.or_false, Bool.false_eq_true, if_false]
        exact ih ordered apart

end Merge

section Sum

variable {us : List Term} {label : Nat → Nat} {part : Nat → Result Multivector} {labels : List Nat}

/-- The sum of the copies of the terms with some labels, added to those with other labels. -/
theorem foldlM_copied (plain : a.Plain) (scaled : a.terms.mapM (Term.scaled 1) = .ok us)
    (ordered : (us.map (·.element)).Pairwise (· < ·))
    (parts : ∀ l, part l = a.copied (label · = l)) (done : List Nat)
    (distinct : (done ++ labels).Nodup) :
    labels.foldlM (fun (sum : Multivector) l => do sum.add (← part l))
        { terms := us.filter fun u => decide (label u.element ∈ done) } =
      .ok { terms := us.filter fun u => decide (label u.element ∈ done ++ labels) } := by
  -- The sum so far has the copies on all blades with a label that is done.
  induction labels generalizing done with
  | nil => simp
  | cons l rest ih =>
    have copy : part l = .ok { terms := us.filter fun u => decide (label u.element = l) } := by
      have terms := Term.mapM_scaled_filter (fun e => decide (label e = l)) scaled
      rw [parts, copied, terms, plain.1, plain.2]
      rfl
    -- The label is a new one, so that no blade is in both.
    have apart : l ∉ done := fun inside =>
      (List.disjoint_of_nodup_append distinct) inside List.mem_cons_self
    have merged := mergeTerms_filter (fun e => decide (label e ∈ done))
      (fun e => decide (label e = l)) ordered fun u _ both => by
        obtain ⟨inside, same⟩ := both
        exact apart (of_decide_eq_true same ▸ of_decide_eq_true inside)
    have step : add { terms := us.filter fun u => decide (label u.element ∈ done) }
        { terms := us.filter fun u => decide (label u.element = l) } =
        .ok { terms := us.filter fun u => decide (label u.element ∈ done ++ [l]) } := by
      have same : (us.filter fun u => decide (label u.element ∈ done) || decide (label u.element = l)) =
          us.filter fun u => decide (label u.element ∈ done ++ [l]) :=
        List.filter_congr fun u _ => by simp
      rw [add, ← same]
      simp only [requirePlain, isPlain, decide_true, if_true, ok_bind, merged]
      rfl
    have reassociated : done ++ l :: rest = (done ++ [l]) ++ rest := by simp
    rw [reassociated] at distinct ⊢
    rw [List.foldlM_cons, copy, ok_bind, step, ok_bind, ih _ distinct]

/-- The sum over all labels has the copies of all terms. -/
theorem foldlM_copied_all (plain : a.Plain) (ordered : a.elements.Pairwise (· < ·))
    (scaled : a.terms.mapM (Term.scaled 1) = .ok us)
    (parts : ∀ l, part l = a.copied (label · = l)) (distinct : labels.Nodup)
    (every : ∀ e ∈ a.elements, label e ∈ labels) :
    labels.foldlM (fun (sum : Multivector) l => do sum.add (← part l)) .zero =
      .ok { terms := us } := by
  have same : us.map (·.element) = a.elements := by
    have shapes : shape { terms := us } = a.shape := shape_scaleTerms scaled
    rw [elements_eq_shape, ← shapes, ← elements_eq_shape, elements]
  -- It starts without any label, and in the end all blades have one that is done.
  have added := foldlM_copied plain scaled (same ▸ ordered) parts [] distinct
  have all : us.filter (fun u => decide (label u.element ∈ [] ++ labels)) = us :=
    List.filter_eq_self.mpr fun u inside => by
      simpa using every _ (same ▸ List.mem_map_of_mem inside)
  rw [all] at added
  simpa [zero] using added

/-- The sum over all labels is a copy of all terms, and it returns exactly where they can be copied. -/
theorem sumOfCopies_eq_ok (label : Nat → Nat) (plain : a.Plain) (ordered : a.elements.Pairwise (· < ·))
    (parts : ∀ l, part l = a.copied (label · = l)) (distinct : labels.Nodup)
    (every : ∀ e ∈ a.elements, label e ∈ labels) :
    labels.foldlM (fun (sum : Multivector) l => do sum.add (← part l)) .zero = .ok c ↔
      a.copied (fun _ => true) = .ok c := by
  -- Copying a plain multivector copies its terms.
  have whole : a.copied (fun _ => true) = do return { terms := ← a.terms.mapM (Term.scaled 1) } := by
    rw [copied, List.filter_true, plain.1, plain.2]
  constructor
  · -- A sum of copies is found from the copies of all terms.
    intro made
    -- Where the sum returns, the part with a term does, so that the term can be copied.
    obtain ⟨us, scaled⟩ : ∃ us, a.terms.mapM (Term.scaled 1) = .ok us := by
      refine exists_mapM_ok fun t member => ?_
      obtain ⟨b, copy⟩ := Algebra.parts_of_sum made _ (every _ (List.mem_map_of_mem member))
      rw [parts] at copy
      obtain ⟨vs, scaled, -⟩ := bind_eq_ok.mp copy
      have chosen : t ∈ a.terms.filter fun s => decide (label s.element = label t.element) :=
        List.mem_filter.mpr ⟨member, by simp⟩
      exact (exists_of_mapM_mem scaled chosen).imp fun _ given => given.2
    rw [whole, scaled, ← made, foldlM_copied_all plain ordered scaled parts distinct every]
    rfl
  · intro made
    rw [whole] at made
    obtain ⟨us, scaled, done⟩ := bind_eq_ok.mp made
    cases done
    exact foldlM_copied_all plain ordered scaled parts distinct every

/-- The sum of the parts of all grades is a copy of all terms. -/
theorem sumOfGrades_eq_ok {n : Nat} (plain : a.Plain) (ordered : a.elements.Pairwise (· < ·))
    (bounded : ∀ e ∈ a.elements, e < 2 ^ n) :
    a.sumOfGrades n = .ok c ↔ a.copied (fun _ => true) = .ok c :=
  sumOfCopies_eq_ok Blade.grade plain ordered selectGrade_eq_copied List.nodup_range
    fun e inside => List.mem_range.mpr (Nat.lt_succ_of_le (Blade.grade_le (bounded e inside)))

/-- The sum of the projections on all blades is a copy of all terms. -/
theorem sumOfBlades_eq_ok {dim : Nat} (plain : a.Plain) (ordered : a.elements.Pairwise (· < ·))
    (bounded : ∀ e ∈ a.elements, e < dim) :
    a.sumOfBlades dim = .ok c ↔ a.copied (fun _ => true) = .ok c :=
  sumOfCopies_eq_ok id plain ordered (extract_eq_copied ordered) List.nodup_range
    fun e inside => List.mem_range.mpr (bounded e inside)

end Sum

/-- Projections on blades, the sum of all of them and the sum of all grade parts give what is stored
exactly where the gate keeps the coefficients that are copied, as it does below its threshold. In the
range of doubles they give a near multivector in any case, and both sums give the same one. -/
theorem projection_exact {n : Nat} (plain : a.Plain) (canonical : a.Canonical)
    (bounded : ∀ e ∈ a.elements, e < 2 ^ n) :
    (a.sumOfGrades n = .ok a ↔ ∀ e ∈ a.entries, GateKeeps e.monomial.coefficient) ∧
    (∀ element, a.extract element = .ok (a.onBlade element) ↔
      ∀ e ∈ a.entries, e.element = element → GateKeeps e.monomial.coefficient) ∧
    (a.sumOfBlades (2 ^ n) = .ok a ↔ ∀ e ∈ a.entries, GateKeeps e.monomial.coefficient) ∧
    ((∀ e ∈ a.entries, e.monomial.coefficient.den < gateThreshold) →
      a.sumOfGrades n = .ok a ∧ (∀ element, a.extract element = .ok (a.onBlade element)) ∧
        a.sumOfBlades (2 ^ n) = .ok a) ∧
    ((∀ e ∈ a.entries, |e.monomial.coefficient| ≤ 2 ^ 1000) →
      (∃ b, a.sumOfGrades n = .ok b ∧ a.sumOfBlades (2 ^ n) = .ok b ∧ a.Near b) ∧
        ∀ element, ∃ b, a.extract element = .ok b ∧ (a.onBlade element).Near b) := by
  have ordered := canonical.ordered
  -- Both sums are a copy of all terms.
  have whole : a.copied (fun _ => true) = .ok a ↔
      ∀ e ∈ a.entries, GateKeeps e.monomial.coefficient := by
    have exactly := a.copied_eq_iff fun _ => true
    rw [restricted_all] at exactly
    simpa using exactly
  have byGrade := (sumOfGrades_eq_ok (c := a) plain ordered bounded).trans whole
  have byBlade := (sumOfBlades_eq_ok (c := a) plain ordered bounded).trans whole
  have single (element : Nat) : a.extract element = .ok (a.onBlade element) ↔
      ∀ e ∈ a.entries, e.element = element → GateKeeps e.monomial.coefficient := by
    rw [extract_eq_copied ordered, onBlade, copied_eq_iff]
    simp
  -- Below the threshold of the gate all coefficients are kept.
  refine ⟨byGrade, single, byBlade, fun small => ?_, fun range => ?_⟩
  · have kept : ∀ e ∈ a.entries, GateKeeps e.monomial.coefficient := fun e inside =>
      gateKeeps_of_small (small e inside)
    exact ⟨byGrade.mpr kept, fun element => (single element).mpr fun e inside _ => kept e inside,
      byBlade.mpr kept⟩
  · refine ⟨?_, fun element => ?_⟩
    · obtain ⟨b, made, near⟩ := exists_copied range fun _ => true
      rw [restricted_all] at near
      exact ⟨b, (sumOfGrades_eq_ok plain ordered bounded).mpr made,
        (sumOfBlades_eq_ok plain ordered bounded).mpr made, near⟩
    · rw [extract_eq_copied ordered]
      exact exists_copied range _

/-- Coefficients with large denominators that the gate keeps. -/
theorem projection_exact_power :
    let a : Multivector := { terms := [⟨1, [⟨1 / 2187, [⟨0, 1 / 2⟩]⟩]⟩, ⟨3, [⟨2, []⟩]⟩] }
    (a.Plain ∧ a.Canonical ∧ ∀ e ∈ a.elements, e < 2 ^ 2) ∧
      a.sumOfGrades 2 = .ok a ∧ a.extract 1 = .ok (a.onBlade 1) ∧ a.sumOfBlades (2 ^ 2) = .ok a := by
  intro a
  have canonical : a.Canonical := by decide +kernel
  have bounded : ∀ e ∈ a.elements, e < 2 ^ 2 := by decide
  have kept : ∀ e ∈ a.entries, GateKeeps e.monomial.coefficient := by
    simpa [a, entries, Term.entries] using ⟨by decide +kernel, by decide +kernel⟩
  obtain ⟨grades, single, blades, -⟩ := projection_exact ⟨rfl, rfl⟩ canonical bounded
  exact ⟨⟨⟨rfl, rfl⟩, canonical, bounded⟩, grades.mpr kept,
    (single 1).mpr fun e inside _ => kept e inside, blades.mpr kept⟩

/-- A coefficient that is not zero, and whose copy is. -/
theorem extract_rounded : ¬ ∀ a : Multivector, a.Plain → a.Canonical →
    (∀ e ∈ a.entries, |e.monomial.coefficient| < 2 ^ 1000) →
      ∀ element, a.extract element = .ok (a.onBlade element) := by
  intro copies
  have canonical : Canonical { terms := [⟨1, [⟨1 / 100000000, []⟩]⟩] } := by decide +kernel
  have small : |(1 / 100000000 : Rat)| < 2 ^ 1000 := by decide +kernel
  have kept := copies _ ⟨rfl, rfl⟩ canonical (by simpa [entries, Term.entries] using small) 1
  rw [extract_eq_copied canonical.ordered, onBlade, copied_eq_iff] at kept
  exact absurd (kept ⟨1, ⟨1 / 100000000, []⟩⟩ List.mem_cons_self rfl) (by decide +kernel)

end Multivector

end Clifford
