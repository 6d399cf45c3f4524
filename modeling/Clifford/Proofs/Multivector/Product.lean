import Clifford.Multivector.Product
import Clifford.Proofs.Metric.Coefficient
import Clifford.Proofs.Multivector.Reading

/-! Products over an orthogonal basis: what they return represents the twisted product of their
factors, and they return where the powers of their factors can be multiplied. -/

namespace Clifford

open Finsupp

/-- Two power sequences have a product, and that has a key. -/
def Multipliable (ps qs : List Power) : Prop :=
  ∃ rs key, mulPowers ps qs = .ok rs ∧ MonomialKey.ofPowers rs = .ok key

/-- The values of powers with whole degrees when all of them count as one. -/
def PowerValue.trivial : PowerValue Unit where
  value _ := ()
  Admits p := Dyadic 0 p.degree
  whole admitted := admitted
  admits_add := @Power.dyadic_add
  value_add _ _ _ := rfl
  value_zero _ := rfl

/-- Powers with whole degrees can be multiplied. -/
theorem multipliable_of_whole {ps qs : List Power} (left : ∀ p ∈ ps, Dyadic 0 p.degree)
    (right : ∀ q ∈ qs, Dyadic 0 q.degree) : Multipliable ps qs := by
  -- Whole degrees add up exactly, so that only the key is left to find.
  obtain ⟨rs, product, whole, -⟩ := PowerValue.trivial.exists_mulPowers ps qs left right
  obtain ⟨key, keyed⟩ := exists_key whole
  exact ⟨rs, key, product, keyed⟩

/-- A canonical multivector on the blades of a space, with coefficients of small denominators. -/
structure Multivector.Over (dim k : Nat) (a : Multivector) : Prop where
  canonical : a.Canonical
  bounded : ∀ t ∈ a.terms, t.element < dim
  dyadic : DyadicEntries k a.entries

/-- Nothing is deferred, and nothing scaled after it. -/
def Multivector.Plain (a : Multivector) : Prop := a.op = .identity ∧ a.opScale = 1

namespace Multivector

/-- Nothing is refused where no function is deferred. -/
theorem requirePlain_eq_ok {a : Multivector} (identity : a.op = .identity) :
    a.requirePlain = .ok () := by
  rw [requirePlain, isPlain, identity]
  rfl

/-- Plain multivectors are determined by their terms. -/
theorem Plain.eq_of_terms {a b : Multivector} (left : a.Plain) (right : b.Plain)
    (same : a.terms = b.terms) : a = b := by
  obtain ⟨terms, op, opScale⟩ := a
  obtain ⟨terms', op', opScale'⟩ := b
  obtain ⟨rfl, rfl⟩ := left
  obtain ⟨rfl, rfl⟩ := right
  obtain rfl : terms = terms' := same
  rfl

/-- The entries of a term are among those of its multivector. -/
theorem mem_entries {a : Multivector} {t : Term} (member : t ∈ a.terms) {e : Entry}
    (inside : e ∈ t.entries) : e ∈ a.entries := List.mem_flatMap.mpr ⟨t, member, inside⟩

/-- The powers of a canonical multivector increase and have keys. -/
theorem Canonical.entry {a : Multivector} (canonical : a.Canonical) {e : Entry}
    (inside : e ∈ a.entries) : e.monomial.Canonical := by
  obtain ⟨t, member, entry⟩ := List.mem_flatMap.mp inside
  obtain ⟨m, monomial, rfl⟩ := List.mem_map.mp entry
  exact (canonical.terms t member).monomials m monomial

/-- A multivector whose entries lie in a space has its terms there. -/
theorem Over.of_entries {dim k : Nat} {a : Multivector} (canonical : a.Canonical)
    (bounded : ∀ e ∈ a.entries, e.element < dim) (dyadic : DyadicEntries k a.entries) :
    a.Over dim k := by
  refine ⟨canonical, fun t member => ?_, dyadic⟩
  -- A canonical term has a monomial to tell its blade.
  obtain ⟨m, monomial⟩ := List.exists_mem_of_ne_nil _ (canonical.terms t member).nonempty
  exact bounded ⟨t.element, m⟩ (mem_entries member (List.mem_map_of_mem monomial))

/-- Larger denominators are allowed as well. -/
theorem Over.mono {dim k l : Nat} {a : Multivector} (inSpace : a.Over dim k) (le : k ≤ l) :
    a.Over dim l :=
  ⟨inSpace.canonical, inSpace.bounded, fun e inside => (inSpace.dyadic e inside).mono le⟩

/-- The entries of a multivector of a space lie in the space. -/
theorem Over.element_lt {dim k : Nat} {a : Multivector} (inSpace : a.Over dim k) {e : Entry}
    (inside : e ∈ a.entries) : e.element < dim := by
  obtain ⟨t, member, entry⟩ := List.mem_flatMap.mp inside
  obtain ⟨mono, -, rfl⟩ := List.mem_map.mp entry
  exact inSpace.bounded t member

/-- The coefficients of a term of a multivector of a space. -/
theorem Over.dyadic_term {dim k : Nat} {a : Multivector} (inSpace : a.Over dim k) {t : Term}
    (member : t ∈ a.terms) : DyadicEntries k t.entries :=
  fun e inside => inSpace.dyadic e (mem_entries member inside)

/-- A single term of a multivector of a space. -/
theorem Over.term {dim k : Nat} {a : Multivector} (inSpace : a.Over dim k) {t : Term}
    (member : t ∈ a.terms) : Multivector.Over dim k { terms := [t] } where
  canonical := ⟨by simpa using inSpace.canonical.terms t member, List.pairwise_singleton _ _⟩
  bounded := by simpa using inSpace.bounded t member
  dyadic := by simpa [entries] using inSpace.dyadic_term member

/-- The multivector of a single term has its entries. -/
theorem entries_singleton (t : Term) : entries { terms := [t] } = t.entries := by
  simp [entries]

end Multivector

/-- What collation returns without a deferred function is plain. -/
theorem collate_plain {entries : List Entry} {c : Multivector} (collated : collate entries = .ok c) :
    c.Plain := by
  obtain ⟨ts, -, done⟩ := Result.bind_eq_ok.mp collated
  cases done
  exact ⟨rfl, rfl⟩

/-- Entries on blades of a space that can be collated give a multivector of the space, which has powers of
theirs and their value. -/
theorem collate_over {k : Nat} (dim : Nat) (small : k ≤ exactBits) {entries : List Entry}
    (bounded : ∀ e ∈ entries, e.element < dim) (dyadic : DyadicEntries k entries)
    (increasing : ∀ e ∈ entries, Increasing e.monomial.powers)
    (keys : ∀ e ∈ entries, ∃ key, MonomialKey.ofPowers e.monomial.powers = .ok key)
    (op : Deferred) (opScale : Rat) :
    ∃ a, collate entries op opScale = .ok a ∧ a.Over dim k ∧ (a.op = op ∧ a.opScale = opScale) ∧
      (∀ e ∈ a.entries, ∃ f ∈ entries,
        f.element = e.element ∧ f.monomial.powers = e.monomial.powers) ∧
      ∀ {M : Type} [AddCommGroup M] [Module Rat M] (r : Reading M),
        r.read a = weightedSum r.weight entries := by
  obtain ⟨a, collated, bound, -⟩ := collate_total Reading.free.weight small dyadic keys op opScale
  obtain ⟨ts, terms, done⟩ := Result.bind_eq_ok.mp collated
  cases done
  -- Each collated entry has the blade and the powers of a given one.
  have source := collateTerms_mem terms
  refine ⟨_, collated, .of_entries (collate_canonical increasing collated) (fun e inside => ?_) bound,
    ⟨rfl, rfl⟩, source, fun r => ?_⟩
  · obtain ⟨f, given, element, -⟩ := source e inside
    exact element ▸ bounded f given
  · obtain ⟨b, again, -, value⟩ := collate_total r.weight small dyadic keys op opScale
    obtain rfl := Except.ok.inj (collated.symm.trans again)
    exact value

namespace BladeProduct

/-- A structure coefficient is one, minus one or zero. -/
theorem coefficient_cases (kind : BladeProduct) (s : Signature) (a b : Nat) :
    kind.coefficient s a b = 1 ∨ kind.coefficient s a b = -1 ∨ kind.coefficient s a b = 0 := by
  -- The squares are among these three, and so are their products.
  have squares : Blade.sharedSquares (Metric.squares s) s.n a b ∈ ({1, -1, 0} : Set Int) := by
    refine Finset.prod_induction _ (· ∈ ({1, -1, 0} : Set Int)) ?_ (by simp) fun i _ => ?_
    · rintro x y (rfl | rfl | rfl) (rfl | rfl | rfl) <;> simp
    · split
      · exact Metric.squares_cases s i
      · simp
  have sign : Blade.paritySign (Blade.crossings s.n a b) = 1 ∨
      Blade.paritySign (Blade.crossings s.n a b) = -1 := by
    rw [Blade.paritySign]
    split <;> simp
  rw [coefficient]
  split
  · rw [Blade.twist]
    rcases squares with one | minus | zero <;> rcases sign with even | odd <;> simp_all
  · simp

/-- The blade of a product is looked up with its structure coefficient. -/
theorem entry_eq (kind : BladeProduct) (m : Metric) {a b : Nat} (left : a < m.dim)
    (right : b < m.dim) :
    kind.entry m a b = .ok (weighted (a ^^^ b) (kind.coefficient m.signature a b)) := by
  have power := m.dim_eq_two_pow
  rw [entry, if_pos ⟨left, right⟩, Metric.base,
    compute_diagonal kind m.signature (power ▸ left) (power ▸ right)]

end BladeProduct

section Returned

variable {M : Type} [AddCommGroup M] [Module Rat M] {r : Reading M} {i j dim : Nat}

/-- What is distributed over two terms represents their product on the given blade. -/
theorem distribute_product {factor : Nat → Nat → Int} {ms ns : List Monomial} {a b : Nat}
    {es : List Entry} (inside : a ^^^ b < dim) (unit : factor a b = 1 ∨ factor a b = -1)
    (left : DyadicEntries i (Term.entries ⟨a, ms⟩)) (right : DyadicEntries j (Term.entries ⟨b, ns⟩))
    (small : i + j ≤ exactBits)
    (multiplies : ∀ m ∈ ms, ∀ n ∈ ns, r.Multiplies m.powers n.powers)
    (returned : distribute ms ns (a ^^^ b) (factor a b) = .ok es) :
    r.Product dim (i + j) (r.twisted factor) (Term.entries ⟨a, ms⟩) (Term.entries ⟨b, ns⟩) es := by
  obtain ⟨rows, mapped, done⟩ := Result.bind_eq_ok.mp returned
  cases done
  -- Both terms are taken apart into single monomials.
  have parts (blade : Nat) (ms : List Monomial) :
      Term.entries ⟨blade, ms⟩ = ms.flatMap fun m => [⟨blade, m⟩] := by
    rw [Term.entries, List.map_eq_flatMap]
  rw [parts, parts, show rows.flatten = rows.flatMap id by simp [List.flatMap_id]]
  refine .of_rows ms (fun m first row columns => ?_) mapped
  rw [show id row = row.flatMap fun e => [e] by simp]
  refine .of_row ns (fun n second e entry => ?_) columns
  -- A single product has the product of both coefficients, with the sign of the blades.
  have p : Dyadic i m.coefficient := left ⟨a, m⟩ (List.mem_map_of_mem first)
  have q : Dyadic j n.coefficient := right ⟨b, n⟩ (List.mem_map_of_mem second)
  rw [gatedMul_eq_ok p q small, Result.ok_bind] at entry
  obtain ⟨powers, made, done⟩ := Result.bind_eq_ok.mp entry
  cases done
  have value := multiplies m first n second powers made
  refine ⟨by simpa [Entry.of] using inside, ?_, ?_, ?_⟩
  · rw [DyadicEntries, List.forall_mem_singleton]
    show Dyadic _ (if factor a b < 0 then _ else _)
    split
    · exact (p.mul q).neg
    · exact p.mul q
  · simpa [Entry.of] using made
  · rcases unit with one | minus
    · simp [Entry.of, Reading.weight, Reading.twisted_single, one, value, smul_smul, mul_comm]
    · simp [Entry.of, Reading.weight, Reading.twisted_single, minus, value, smul_smul, mul_comm]

namespace BladeProduct

variable {kind : BladeProduct} {m : Metric}

/-- What is looked up for two terms represents their product. -/
theorem directPair_product {s t : Term} {es : List Entry} (left : s.element < m.dim)
    (right : t.element < m.dim) (leftDyadic : DyadicEntries i s.entries)
    (rightDyadic : DyadicEntries j t.entries) (small : i + j ≤ exactBits)
    (multiplies : ∀ x ∈ s.monomials, ∀ y ∈ t.monomials, r.Multiplies x.powers y.powers)
    (returned : kind.directPair m s t = .ok es) :
    r.Product m.dim (i + j) (r.twisted (kind.coefficient m.signature)) s.entries t.entries es := by
  rw [directPair, entry_eq kind m left right, Result.ok_bind] at returned
  simp only [weighted] at returned
  split at returned
  · -- A product of zero is not distributed at all.
    rename_i zero
    cases returned
    refine ⟨by simp, by simp [DyadicEntries], by simp, ?_⟩
    have leftTotal := r.weightedSum_term s.element s.monomials
    have rightTotal := r.weightedSum_term t.element t.monomials
    rw [weightedSum_nil, leftTotal, rightTotal, r.twisted_single, zero]
    simp
  · rename_i nonzero
    -- Otherwise the blades multiply to one or to minus one.
    have unit : kind.coefficient m.signature s.element t.element = 1 ∨
        kind.coefficient m.signature s.element t.element = -1 := by
      rcases kind.coefficient_cases m.signature s.element t.element with one | minus | zero
      · exact .inl one
      · exact .inr minus
      · exact absurd zero nonzero
    exact distribute_product (m.xor_lt_dim left right) unit leftDyadic rightDyadic small multiplies
      returned

/-- Products of all pairs of terms represent the product of the multivectors. -/
theorem rows_product {a b : Multivector} {f : Term → Term → Result (List Entry)} {k : Nat}
    {mul : (Nat →₀ M) →ₗ[Rat] (Nat →₀ M) →ₗ[Rat] (Nat →₀ M)} {rows : List (List (List Entry))}
    (each : ∀ s ∈ a.terms, ∀ t ∈ b.terms, ∀ es, f s t = .ok es →
      r.Product dim k mul s.entries t.entries es)
    (mapped : (a.terms.mapM fun s => b.terms.mapM fun t => f s t) = .ok rows) :
    r.Product dim k mul a.entries b.entries (rows.map List.flatten).flatten := by
  rw [← List.flatMap_def]
  refine .of_rows a.terms (fun s first row columns => ?_) mapped
  rw [show row.flatten = row.flatMap id by simp [List.flatMap_id]]
  exact .of_row b.terms (fun t second es pair => each s first t second es pair) columns

/-- Products of all pairs of terms, collated, represent the product of the multivectors. -/
theorem pairs_product {a b c : Multivector} {f : Term → Term → Result (List Entry)} {k : Nat}
    {mul : (Nat →₀ M) →ₗ[Rat] (Nat →₀ M) →ₗ[Rat] (Nat →₀ M)} (left : a.Canonical)
    (right : b.Canonical) (small : k ≤ exactBits)
    (each : ∀ s ∈ a.terms, ∀ t ∈ b.terms, ∀ es, f s t = .ok es →
      r.Product dim k mul s.entries t.entries es)
    (returned : (do
      let rows ← a.terms.mapM fun s => b.terms.mapM fun t => f s t
      collate (rows.map List.flatten).flatten) = .ok c) :
    c.Over dim k ∧ c.Plain ∧ r.Product dim k mul a.entries b.entries c.entries := by
  obtain ⟨rows, mapped, collated⟩ := Result.bind_eq_ok.mp returned
  -- The entries of all pairs represent the product, and collating them changes nothing about that.
  have gathered := rows_product each mapped
  have product := gathered.of_collate small collated
  have canonical := gathered.canonical (fun x inside => (left.entry inside).increasing)
    (fun y inside => (right.entry inside).increasing) collated
  exact ⟨.of_entries canonical product.bounded product.dyadic, collate_plain collated, product⟩

/-- The product over an orthogonal basis represents the product of the multivectors. -/
theorem directProduct_product {a b c : Multivector} (left : a.Over m.dim i) (right : b.Over m.dim j)
    (small : i + j ≤ exactBits)
    (multiplies : ∀ x ∈ a.entries, ∀ y ∈ b.entries,
      r.Multiplies x.monomial.powers y.monomial.powers)
    (returned : kind.directProduct m a.terms b.terms = .ok c) :
    c.Over m.dim (i + j) ∧ c.Plain ∧
      r.Product m.dim (i + j) (r.twisted (kind.coefficient m.signature)) a.entries b.entries
        c.entries := by
  refine pairs_product left.canonical right.canonical small (fun s first t second es pair => ?_)
    returned
  refine directPair_product (left.bounded s first) (right.bounded t second)
    (left.dyadic_term first) (right.dyadic_term second) small (fun x member y other => ?_) pair
  exact multiplies ⟨s.element, x⟩ (Multivector.mem_entries first (List.mem_map_of_mem member))
    ⟨t.element, y⟩ (Multivector.mem_entries second (List.mem_map_of_mem other))

end BladeProduct

end Returned

section Returns

variable {i j dim : Nat}

/-- The reading that forgets all powers. -/
def Reading.trivial : Reading Rat := ⟨fun _ => 0, 0⟩

/-- Nothing has to be known for the reading that forgets all powers. -/
theorem Reading.multiplies_trivial (ps qs : List Power) : trivial.Multiplies ps qs :=
  fun _ _ => rfl

/-- The powers of some entries have keys. -/
def KeyedEntries (entries : List Entry) : Prop :=
  ∀ e ∈ entries, ∃ key, MonomialKey.ofPowers e.monomial.powers = .ok key

/-- Monomials that can be multiplied are distributed over entries with keys. -/
theorem exists_distribute {ms ns : List Monomial} (element : Nat) (sign : Int)
    (left : ∀ m ∈ ms, Dyadic i m.coefficient) (right : ∀ n ∈ ns, Dyadic j n.coefficient)
    (small : i + j ≤ exactBits) (multipliable : ∀ m ∈ ms, ∀ n ∈ ns, Multipliable m.powers n.powers) :
    ∃ es, distribute ms ns element sign = .ok es ∧ KeyedEntries es := by
  obtain ⟨rows, mapped⟩ : ∃ rows, (ms.mapM fun a => ns.mapM fun b => do
      let q ← gatedMul a.coefficient b.coefficient
      let powers ← mulPowers a.powers b.powers
      return Entry.of element (if sign < 0 then -q else q) powers) = .ok rows := by
    refine Result.exists_mapM_ok fun m first => Result.exists_mapM_ok fun n second => ?_
    obtain ⟨rs, -, made, -⟩ := multipliable m first n second
    exact ⟨_, by rw [gatedMul_eq_ok (left m first) (right n second) small, Result.ok_bind, made]; rfl⟩
  refine ⟨rows.flatten, by rw [distribute, mapped]; rfl, fun e inside => ?_⟩
  -- Every entry has the product of the powers of two monomials.
  obtain ⟨row, member, entry⟩ := List.mem_flatten.mp inside
  obtain ⟨m, first, columns⟩ := Result.exists_of_mem_mapM mapped member
  obtain ⟨n, second, made⟩ := Result.exists_of_mem_mapM columns entry
  obtain ⟨q, -, rest⟩ := Result.bind_eq_ok.mp made
  obtain ⟨powers, product, done⟩ := Result.bind_eq_ok.mp rest
  cases done
  obtain ⟨rs, key, again, keyed⟩ := multipliable m first n second
  obtain rfl := Except.ok.inj (product.symm.trans again)
  exact ⟨key, keyed⟩

namespace BladeProduct

variable {kind : BladeProduct} {m : Metric} {a b : Multivector}

/-- Terms have a product over an orthogonal basis if their monomials can be multiplied wherever their
structure coefficient is not zero. -/
theorem exists_directPair {s t : Term} (left : s.element < m.dim) (right : t.element < m.dim)
    (leftDyadic : DyadicEntries i s.entries) (rightDyadic : DyadicEntries j t.entries)
    (small : i + j ≤ exactBits)
    (multipliable : kind.coefficient m.signature s.element t.element ≠ 0 →
      ∀ x ∈ s.monomials, ∀ y ∈ t.monomials, Multipliable x.powers y.powers) :
    ∃ es, kind.directPair m s t = .ok es ∧ KeyedEntries es := by
  rw [directPair, entry_eq kind m left right, Result.ok_bind]
  simp only [weighted]
  -- A pair whose product is zero asks nothing of its monomials.
  split
  · exact ⟨[], rfl, by simp [KeyedEntries]⟩
  · rename_i nonzero
    exact exists_distribute _ _
      (fun x member => leftDyadic ⟨s.element, x⟩ (List.mem_map_of_mem member))
      (fun y member => rightDyadic ⟨t.element, y⟩ (List.mem_map_of_mem member)) small
      (multipliable nonzero)

/-- Products of pairs of terms collate when all of them return entries with keys. -/
theorem exists_pairs {f : Term → Term → Result (List Entry)} {k : Nat}
    {mul : (Nat →₀ Rat) →ₗ[Rat] (Nat →₀ Rat) →ₗ[Rat] (Nat →₀ Rat)} (small : k ≤ exactBits)
    (each : ∀ s ∈ a.terms, ∀ t ∈ b.terms, ∀ es, f s t = .ok es →
      Reading.trivial.Product dim k mul s.entries t.entries es)
    (returns : ∀ s ∈ a.terms, ∀ t ∈ b.terms, ∃ es, f s t = .ok es ∧ KeyedEntries es) :
    ∃ c, (do
      let rows ← a.terms.mapM fun s => b.terms.mapM fun t => f s t
      collate (rows.map List.flatten).flatten) = .ok c := by
  obtain ⟨rows, mapped⟩ : ∃ rows, (a.terms.mapM fun s => b.terms.mapM fun t => f s t) = .ok rows :=
    Result.exists_mapM_ok fun s first => Result.exists_mapM_ok fun t second =>
      (returns s first t second).imp fun _ => And.left
  have gathered := rows_product each mapped
  have keys : KeyedEntries (rows.map List.flatten).flatten := by
    intro e inside
    -- Every entry belongs to one of the pairs, which returns entries with keys.
    obtain ⟨es, row, entry⟩ := List.mem_flatten.mp inside
    obtain ⟨row, member, rfl⟩ := List.mem_map.mp row
    obtain ⟨es, pair, entry⟩ := List.mem_flatten.mp entry
    obtain ⟨s, first, columns⟩ := Result.exists_of_mem_mapM mapped member
    obtain ⟨t, second, made⟩ := Result.exists_of_mem_mapM columns pair
    obtain ⟨es', again, keyed⟩ := returns s first t second
    obtain rfl := Except.ok.inj (made.symm.trans again)
    exact keyed e entry
  -- All entries have keys, so that they can be collected.
  obtain ⟨c, collated, -⟩ :=
    collate_total Reading.trivial.weight small gathered.dyadic keys .identity 1
  exact ⟨c, by rw [mapped, Result.ok_bind]; exact collated⟩

variable (kind) in
/-- Multivectors have a product over an orthogonal basis if monomials can be multiplied wherever the
structure coefficient of their blades is not zero. -/
theorem exists_directProduct (left : a.Over m.dim i) (right : b.Over m.dim j)
    (small : i + j ≤ exactBits)
    (multipliable : ∀ s ∈ a.terms, ∀ t ∈ b.terms,
      kind.coefficient m.signature s.element t.element ≠ 0 →
        ∀ x ∈ s.monomials, ∀ y ∈ t.monomials, Multipliable x.powers y.powers) :
    ∃ c, kind.directProduct m a.terms b.terms = .ok c := by
  have each : ∀ s ∈ a.terms, ∀ t ∈ b.terms, ∀ es, kind.directPair m s t = .ok es →
      Reading.trivial.Product m.dim (i + j) (Reading.trivial.twisted (kind.coefficient m.signature))
        s.entries t.entries es := fun s first t second es pair =>
    directPair_product (left.bounded s first) (right.bounded t second) (left.dyadic_term first)
      (right.dyadic_term second) small (fun _ _ _ _ => Reading.multiplies_trivial _ _) pair
  exact exists_pairs small each fun s first t second =>
    exists_directPair (left.bounded s first) (right.bounded t second) (left.dyadic_term first)
      (right.dyadic_term second) small (multipliable s first t second)

end BladeProduct

end Returns

end Clifford
