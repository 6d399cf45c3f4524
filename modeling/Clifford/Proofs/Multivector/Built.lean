import Clifford.Proofs.Multivector.Fresh

/-! What results are built from: they lie on increasing blades, and have powers that products make from
those of the operands. -/

namespace Clifford

/-- A property of power sequences that products and inverses keep, and that no powers at all have. -/
structure PowerClosed (Q : List Power → Prop) : Prop where
  nil : Q []
  mul : ∀ {ps qs rs : List Power}, Q ps → Q qs → mulPowers ps qs = .ok rs → Q rs
  inverse : ∀ {ps : List Power}, Q ps → Q (ps.map Power.inverse)

/-- All entries have powers with a property. -/
def PowersIn (Q : List Power → Prop) (es : List Entry) : Prop := ∀ e ∈ es, Q e.monomial.powers

/-- Every property of ids is kept. -/
theorem powerClosed_ids (P : Nat → Prop) : PowerClosed fun ps => ∀ p ∈ ps, P p.id where
  nil := by simp
  mul left right product r inside := by
    -- An id of a product is one of either factor.
    rcases (mem_mulPowers _ _ product r inside).id_mem with ⟨p, old, same⟩ | ⟨q, old, same⟩
    · exact same ▸ left p old
    · exact same ▸ right q old
  inverse each p inside := by
    obtain ⟨q, old, rfl⟩ := List.mem_map.mp inside
    exact each q old

variable {Q : List Power → Prop}

section Rows

variable {α β : Type} {f : α → β → Result (List Entry)} {xs : List α} {ys : List β}
  {rows : List (List (List Entry))}

/-- Every entry of a table of lists comes from one of its cells. -/
theorem exists_of_mem_rows (made : xs.mapM (fun x => ys.mapM (f x)) = .ok rows) {e : Entry}
    (inside : e ∈ (rows.map List.flatten).flatten) :
    ∃ x ∈ xs, ∃ y ∈ ys, ∃ es, f x y = .ok es ∧ e ∈ es := by
  -- From the outside to the inside: a row, the list of a cell in it, the entry.
  obtain ⟨flat, row, member⟩ := List.mem_flatten.mp inside
  obtain ⟨lists, given, rfl⟩ := List.mem_map.mp row
  obtain ⟨es, cell, present⟩ := List.mem_flatten.mp member
  obtain ⟨x, first, mapped⟩ := Result.exists_of_mem_mapM made given
  obtain ⟨y, second, value⟩ := Result.exists_of_mem_mapM mapped cell
  exact ⟨x, first, y, second, es, value, present⟩

end Rows

/-- Collation keeps the powers of its entries. -/
theorem powersIn_collate {es : List Entry} {op : Deferred} {opScale : Rat} {a : Multivector}
    (given : PowersIn Q es) (collated : collate es op opScale = .ok a) : PowersIn Q a.entries := by
  obtain ⟨ts, terms, done⟩ := Result.bind_eq_ok.mp collated
  cases done
  intro e inside
  obtain ⟨f, old, -, same⟩ := collateTerms_mem terms e inside
  exact same ▸ given f old

/-- The monomials of two terms are multiplied. -/
theorem powersIn_distribute (closed : PowerClosed Q) {ms ns : List Monomial} {element : Nat}
    {sign : Int} {es : List Entry} (left : ∀ m ∈ ms, Q m.powers) (right : ∀ n ∈ ns, Q n.powers)
    (made : distribute ms ns element sign = .ok es) : PowersIn Q es := by
  obtain ⟨rows, mapped, done⟩ := Result.bind_eq_ok.mp made
  cases done
  intro e inside
  -- An entry of a row is the product of two monomials.
  obtain ⟨row, given, member⟩ := List.mem_flatten.mp inside
  obtain ⟨m, first, products⟩ := Result.exists_of_mem_mapM mapped given
  obtain ⟨n, second, product⟩ := Result.exists_of_mem_mapM products member
  obtain ⟨q, -, rest⟩ := Result.bind_eq_ok.mp product
  obtain ⟨powers, multiplied, done⟩ := Result.bind_eq_ok.mp rest
  cases done
  exact closed.mul (left m first) (right n second) multiplied

namespace Metric

variable {m : Metric} {matrix : PairMatrix} {a b : Multivector}

/-- The images of a term have its powers. -/
theorem powersIn_termImages {t : Term} {es : List Entry} (given : PowersIn Q t.entries)
    (made : m.termImages matrix t = .ok es) : PowersIn Q es := by
  obtain ⟨images, -, rest⟩ := Result.bind_eq_ok.mp made
  obtain ⟨copies, mapped, done⟩ := Result.bind_eq_ok.mp rest
  cases done
  intro e inside
  -- An image scales the monomials of the term.
  obtain ⟨copy, found, member⟩ := List.mem_flatten.mp inside
  obtain ⟨image, -, monomials⟩ := Result.exists_of_mem_mapM mapped found
  obtain ⟨mono, old, scaled⟩ := Result.exists_of_mem_mapM monomials member
  obtain ⟨q, -, done⟩ := Result.bind_eq_ok.mp scaled
  cases done
  exact given ⟨t.element, mono⟩ (List.mem_map_of_mem old)

/-- A change of basis collates images of the terms. -/
theorem changeBasis_eq_ok (made : m.changeBasis matrix a = .ok b) : ∃ images,
    a.terms.mapM (m.termImages matrix) = .ok images ∧
      collate images.flatten a.op a.opScale = .ok b := Result.bind_eq_ok.mp made

/-- A change of basis keeps the powers. -/
theorem powersIn_changeBasis (given : PowersIn Q a.entries)
    (made : m.changeBasis matrix a = .ok b) : ∃ es, PowersIn Q es ∧
      collate es a.op a.opScale = .ok b := by
  obtain ⟨images, mapped, collated⟩ := changeBasis_eq_ok made
  refine ⟨_, fun e inside => ?_, collated⟩
  obtain ⟨es, row, member⟩ := List.mem_flatten.mp inside
  obtain ⟨t, old, image⟩ := Result.exists_of_mem_mapM mapped row
  exact powersIn_termImages (fun e inside => given e (Multivector.mem_entries old inside)) image e
    member

/-- Another basis keeps the powers, if there is one. -/
theorem powersIn_change (given : PowersIn Q a.entries)
    (made : (if m.isDiagonal then .ok a else m.changeBasis matrix a) = .ok b) :
    PowersIn Q b.entries := by
  split at made
  · cases made
    exact given
  · obtain ⟨es, images, collated⟩ := powersIn_changeBasis given made
    exact powersIn_collate images collated

/-- The orthogonal basis keeps the powers. -/
theorem powersIn_diagonalize (given : PowersIn Q a.entries) (made : m.diagonalize a = .ok b) :
    PowersIn Q b.entries := powersIn_change given made

/-- The working basis keeps the powers. -/
theorem powersIn_undiagonalize (given : PowersIn Q a.entries) (made : m.undiagonalize a = .ok b) :
    PowersIn Q b.entries := powersIn_change given made

end Metric

namespace BladeProduct

variable {kind : BladeProduct} {m : Metric} {a b c : Multivector} {s t : Term} {es : List Entry}

/-- The powers of two terms are multiplied. -/
theorem powersIn_directPair (closed : PowerClosed Q) (left : PowersIn Q s.entries)
    (right : PowersIn Q t.entries) (made : kind.directPair m s t = .ok es) : PowersIn Q es := by
  obtain ⟨⟨element, sign⟩, -, rest⟩ := Result.bind_eq_ok.mp made
  -- A product of zero has no entries, and any other one is distributed.
  dsimp only at rest
  split at rest
  · cases rest
    exact fun e inside => absurd inside List.not_mem_nil
  · exact powersIn_distribute closed
      (fun n inside => left ⟨s.element, n⟩ (List.mem_map_of_mem inside))
      (fun n inside => right ⟨t.element, n⟩ (List.mem_map_of_mem inside)) rest

/-- The powers of several terms are multiplied. -/
theorem powersIn_directProduct (closed : PowerClosed Q) (left : PowersIn Q a.entries)
    (right : PowersIn Q b.entries) (made : kind.directProduct m a.terms b.terms = .ok c) :
    PowersIn Q c.entries := by
  obtain ⟨rows, mapped, collated⟩ := Result.bind_eq_ok.mp made
  refine powersIn_collate (fun e inside => ?_) collated
  obtain ⟨s, first, t, second, es, pair, member⟩ := exists_of_mem_rows mapped inside
  exact powersIn_directPair closed (fun e inside => left e (Multivector.mem_entries first inside))
    (fun e inside => right e (Multivector.mem_entries second inside)) pair e member

/-- The powers of two terms are multiplied in whichever basis their product is taken. -/
theorem powersIn_termPair (closed : PowerClosed Q) (left : PowersIn Q s.entries)
    (right : PowersIn Q t.entries) (made : kind.termPair m s t = .ok es) : PowersIn Q es := by
  -- Blades of a null pair are multiplied one by one in the orthogonal basis.
  have single {t : Term} (given : PowersIn Q t.entries) :
      PowersIn Q (Multivector.entries { terms := [t] }) := by
    simpa [Multivector.entries] using given
  rw [termPair] at made
  split at made
  · obtain ⟨x, first, rest⟩ := Result.bind_eq_ok.mp made
    obtain ⟨y, second, rest⟩ := Result.bind_eq_ok.mp rest
    obtain ⟨product, multiplied, rest⟩ := Result.bind_eq_ok.mp rest
    obtain ⟨z, back, done⟩ := Result.bind_eq_ok.mp rest
    cases done
    have products := powersIn_directProduct closed (Metric.powersIn_diagonalize (single left) first)
      (Metric.powersIn_diagonalize (single right) second) multiplied
    exact Metric.powersIn_undiagonalize products back
  · exact powersIn_directPair closed left right made

/-- A product collates products of the terms. -/
theorem powersIn_product (closed : PowerClosed Q) (left : PowersIn Q a.entries)
    (right : PowersIn Q b.entries) (made : kind.product m a b = .ok c) :
    ∃ es, PowersIn Q es ∧ collate es = .ok c := by
  obtain ⟨u, -, rest⟩ := Result.bind_eq_ok.mp made
  obtain ⟨v, -, rest⟩ := Result.bind_eq_ok.mp rest
  -- Behind both requirements stands the table of all pairs of terms.
  obtain ⟨rows, mapped, collated⟩ := Result.bind_eq_ok.mp rest
  refine ⟨_, fun e inside => ?_, collated⟩
  obtain ⟨s, first, t, second, es, pair, member⟩ := exists_of_mem_rows mapped inside
  exact powersIn_termPair closed (fun e inside => left e (Multivector.mem_entries first inside))
    (fun e inside => right e (Multivector.mem_entries second inside)) pair e member

end BladeProduct

namespace Multivector

variable {a b c : Multivector}

/-- A multivector on increasing blades whose powers have a property. -/
structure Built (Q : List Power → Prop) (a : Multivector) : Prop where
  ordered : a.elements.Pairwise (· < ·)
  powers : PowersIn Q a.entries

/-- The blade of a term with the powers on it, without the coefficients. -/
def termShape (t : Term) : Nat × List (List Power) := (t.element, t.monomials.map (·.powers))

/-- The blades with the powers on each of them, without the coefficients. -/
def shape (a : Multivector) : List (Nat × List (List Power)) := a.terms.map termShape

/-- A weaker property of the powers. -/
theorem Built.mono {Q' : List Power → Prop} (weaker : ∀ {ps}, Q ps → Q' ps) (built : a.Built Q) :
    a.Built Q' := ⟨built.ordered, fun e inside => weaker (built.powers e inside)⟩

/-- A collated multivector is built from the powers of the entries. -/
theorem built_collate {es : List Entry} {op : Deferred} {opScale : Rat} (given : PowersIn Q es)
    (collated : collate es op opScale = .ok a) : a.Built Q :=
  ⟨collate_ordered collated, powersIn_collate given collated⟩

/-- Nothing is built from nothing. -/
theorem built_zero : zero.Built Q := ⟨.nil, fun e inside => by simp [entries, zero] at inside⟩

/-- A single monomial is built from its powers. -/
theorem built_single {element : Nat} {m : Monomial} {op : Deferred} {opScale : Rat}
    (given : Q m.powers) : Built Q ⟨[⟨element, [m]⟩], op, opScale⟩ := by
  refine ⟨List.pairwise_singleton _ _, fun e inside => ?_⟩
  obtain rfl : e = ⟨element, m⟩ := by simpa [entries, Term.entries] using inside
  exact given

/-- A multiple of a blade has no powers. -/
theorem built_basis (closed : PowerClosed Q) (element : Nat) (q : Rat) : (basis element q).Built Q := by
  rw [basis]
  split
  · exact built_zero
  · exact built_single closed.nil

/-- There is a term for each fresh indeterminate. -/
@[simp] theorem length_fresh {id : Nat} {blades : List Nat} :
    (fresh id blades).terms.length = blades.length := by
  simp [fresh]

/-- Fresh indeterminates are built from their powers. -/
theorem built_fresh {id : Nat} {blades : List Nat} (increasing : blades.Pairwise (· < ·))
    (given : ∀ k < blades.length, Q [Power.linear (id + k)]) : (fresh id blades).Built Q := by
  refine ⟨by simpa using increasing, fun e inside => ?_⟩
  rw [entries_fresh] at inside
  obtain ⟨k, small, rfl⟩ := List.mem_mapIdx.mp inside
  exact given k small

/-- An indeterminate of degree one with a coefficient of one is fresh. -/
theorem indeterminate_eq_fresh (id element : Nat) :
    indeterminate id element 1 1 = .ok (fresh id [element]) := by
  -- The degree is a number that the gate keeps, so the indeterminate has its key.
  have degree : totalDegree [Power.linear id] = .ok 1 := by
    show gatedAdd 0 1 >>= _ = _
    rw [gatedAdd_eq_ok (.zero 0) (.one 0) (Nat.zero_le _), zero_add]
    rfl
  rw [indeterminate, if_neg one_ne_zero]
  show totalDegree [Power.linear id] >>= _ = _
  rw [degree]
  rfl

/-- The blades are part of the shape. -/
theorem elements_eq_shape : a.elements = a.shape.map Prod.fst := by
  simp [elements, shape, termShape, Function.comp_def]

/-- The powers are part of the shape. -/
theorem powersIn_iff_shape : PowersIn Q a.entries ↔ ∀ t ∈ a.shape, ∀ ps ∈ t.2, Q ps := by
  constructor
  · intro each row inside ps given
    obtain ⟨t, member, rfl⟩ := List.mem_map.mp inside
    obtain ⟨m, monomial, rfl⟩ := List.mem_map.mp given
    exact each ⟨t.element, m⟩ (mem_entries member (List.mem_map_of_mem monomial))
  · intro each e inside
    obtain ⟨t, member, entry⟩ := List.mem_flatMap.mp inside
    obtain ⟨m, monomial, rfl⟩ := List.mem_map.mp entry
    exact each _ (List.mem_map_of_mem member) _ (List.mem_map_of_mem monomial)

/-- What a multivector is built from only depends on its shape. -/
theorem Built.of_shape (built : a.Built Q) (same : b.shape = a.shape) : b.Built Q := by
  refine ⟨?_, powersIn_iff_shape.mpr (same ▸ powersIn_iff_shape.mp built.powers)⟩
  -- Blades are read off the shape as well.
  rw [elements_eq_shape, same, ← elements_eq_shape]
  exact built.ordered

/-- Multiplied coefficients leave the powers as they are. -/
theorem powers_scaleMonomials {q : Rat} {ms ns : List Monomial}
    (made : scaleMonomials q ms = .ok ns) : ns.map (·.powers) = ms.map (·.powers) := by
  have pairs := Result.mapM_eq_ok.mp made
  clear made
  -- A product that the gate gives changes a coefficient alone.
  induction pairs with
  | nil => rfl
  | cons first _ ih =>
    obtain ⟨p, -, done⟩ := Result.bind_eq_ok.mp first
    cases done
    rw [List.map_cons, List.map_cons, ih]

/-- Multiplied terms keep their blades and their powers. -/
theorem shape_scaleTerms {q : Rat} {ss ts : List Term} (made : ss.mapM (fun t => do
    return { t with monomials := ← scaleMonomials q t.monomials }) = .ok ts) :
    ts.map termShape = ss.map termShape := by
  have pairs := Result.mapM_eq_ok.mp made
  clear made
  induction pairs with
  | nil => rfl
  | cons first _ ih =>
    obtain ⟨ms, monomials, done⟩ := Result.bind_eq_ok.mp first
    cases done
    rw [List.map_cons, List.map_cons, ih, termShape, termShape, powers_scaleMonomials monomials]

/-- A multiple has the shape of what is multiplied, or is zero. -/
theorem shape_scale {q : Rat} (made : a.scale q = .ok b) : b.shape = a.shape ∨ b = zero := by
  -- By one, by zero, of plain terms, and of a deferred function, where only its multiplier changes.
  rw [scale] at made
  split at made
  · cases made
    exact .inl rfl
  split at made
  · cases made
    exact .inr rfl
  split at made
  · obtain ⟨ts, mapped, done⟩ := Result.bind_eq_ok.mp made
    cases done
    exact .inl (shape_scaleTerms mapped)
  · obtain ⟨p, -, done⟩ := Result.bind_eq_ok.mp made
    cases done
    exact .inl rfl

/-- A multiple is built from the same powers. -/
theorem Built.scale {q : Rat} (built : a.Built Q) (made : a.scale q = .ok b) : b.Built Q := by
  rcases shape_scale made with same | rfl
  · exact built.of_shape same
  · exact built_zero

/-- A sum is built from the powers of both addends. -/
theorem Built.add (left : a.Built Q) (right : b.Built Q) (made : a.add b = .ok c) : c.Built Q := by
  have powers := powers_add made
  obtain ⟨us, merged, rfl⟩ := add_eq_ok made
  refine ⟨ordered_mergeTerms a.terms b.terms left.ordered right.ordered merged, fun e inside => ?_⟩
  obtain ⟨f, given, same⟩ := powers e inside
  rw [← same]
  exact (List.mem_append.mp given).elim (left.powers f) (right.powers f)

/-- A product is built from products of powers. -/
theorem Built.product (closed : PowerClosed Q) {kind : BladeProduct} {m : Metric} (left : a.Built Q)
    (right : b.Built Q) (made : kind.product m a b = .ok c) : c.Built Q := by
  obtain ⟨es, given, collated⟩ :=
    BladeProduct.powersIn_product closed left.powers right.powers made
  exact built_collate given collated

/-- A quotient collates products with the inverse of the divisor. -/
theorem powersIn_divide (closed : PowerClosed Q) (left : PowersIn Q a.entries)
    (right : PowersIn Q b.entries) (made : a.divide b = .ok c) :
    ∃ es, PowersIn Q es ∧ collate es = .ok c := by
  obtain ⟨-, -, m, quotients, found, -, mapped, collated⟩ := divide_eq_ok made
  have terms := divisorMonomial_eq_ok.mp found
  -- Only the powers of the single monomial of the divisor are inverted.
  have divisor : Q m.powers := right ⟨0, m⟩ (by simp [entries, terms, Term.entries])
  refine ⟨quotients, fun e inside => ?_, collated⟩
  obtain ⟨f, given, quotient⟩ := Result.exists_of_mem_mapM mapped inside
  obtain ⟨q, -, rest⟩ := Result.bind_eq_ok.mp quotient
  obtain ⟨powers, multiplied, done⟩ := Result.bind_eq_ok.mp rest
  cases done
  exact closed.mul (left f given) (closed.inverse divisor) multiplied

/-- A quotient is built from products with the inverse of the divisor. -/
theorem Built.divide (closed : PowerClosed Q) (left : a.Built Q) (right : b.Built Q)
    (made : a.divide b = .ok c) : c.Built Q := by
  obtain ⟨es, given, collated⟩ := powersIn_divide closed left.powers right.powers made
  exact built_collate given collated

/-- A reversal is built from the same powers. -/
theorem Built.reverse (built : a.Built Q) (made : a.reverse = .ok b) : b.Built Q := by
  obtain ⟨-, rfl⟩ := reverse_eq_ok made
  refine built.of_shape ?_
  simp [shape, termShape, rescaled, Function.comp_def]

/-- A dual collates the same powers. -/
theorem powersIn_dual {n : Nat} (given : PowersIn Q a.entries) (made : a.dual n = .ok b) :
    ∃ es, PowersIn Q es ∧ collate es = .ok b := by
  obtain ⟨u, -, collated⟩ := Result.bind_eq_ok.mp made
  refine ⟨_, fun f inside => ?_, collated⟩
  -- The complement moves an entry to another blade.
  obtain ⟨e, old, rfl⟩ := List.mem_map.mp inside
  exact given e old

/-- A dual is built from the same powers. -/
theorem Built.dual {n : Nat} (built : a.Built Q) (made : a.dual n = .ok b) : b.Built Q := by
  obtain ⟨es, given, collated⟩ := powersIn_dual built.powers made
  exact built_collate given collated

/-- A deferred function is built from the powers of its argument, or is known. -/
theorem Built.withOp (closed : PowerClosed Q) {op : Deferred} (built : a.Built Q)
    (made : a.withOp op = .ok b) : b.Built Q := by
  obtain ⟨-, ⟨-, rfl⟩ | ⟨-, rfl⟩⟩ := withOp_eq_ok.mp made
  · -- The function of zero is a number.
    split
    · exact built_basis closed 0 1
    · exact built_zero
  · exact built.of_shape rfl

/-- A projection is built from the powers on its blade. -/
theorem Built.extract {element : Nat} (built : a.Built Q) (made : a.extract element = .ok b) :
    b.Built Q := by
  rcases extract_eq_ok built.ordered made with ⟨t, member, rfl, ms, scaled, rfl⟩ | ⟨-, rfl⟩
  · -- The copy of the term has its powers.
    refine ⟨List.pairwise_singleton _ _, powersIn_iff_shape.mpr fun u inside ps given => ?_⟩
    obtain rfl := List.mem_singleton.mp inside
    have old : ps ∈ ms.map (·.powers) := given
    rw [powers_scaleMonomials scaled] at old
    exact powersIn_iff_shape.mp built.powers _ (List.mem_map_of_mem member) ps old
  · exact ⟨.nil, fun e inside => by simp [entries] at inside⟩

end Multivector

end Clifford
