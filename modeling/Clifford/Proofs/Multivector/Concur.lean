import Clifford.Proofs.Multivector.Renaming

/-! Operators under renamings: on operands that correspond they give values that correspond, unless one
of them overflows. On operands that correspond to themselves this says that overflow is all that an
operator fails by. -/

namespace Clifford

open Result (Concur)

variable {dim : Nat} {rel : Nat → Nat → Prop}

/-- Products of renamed power sequences are renamed. -/
theorem mulPowers_concur (keeps : KeepsOrder rel) (ps rs : List Power) : ∀ {qs ss : List Power},
    List.Forall₂ (Power.Renamed rel) ps qs → List.Forall₂ (Power.Renamed rel) rs ss →
      Concur (List.Forall₂ (Power.Renamed rel)) (mulPowers ps rs) (mulPowers qs ss) := by
  -- The merge branches on ids alone, whose order the renaming keeps, so both runs take the same
  -- branch.
  induction ps, rs using mulPowers.induct with
  | case1 rs =>
    rintro _ ss (_ | _) right
    rw [mulPowers, mulPowers]
    exact .ok right
  | case2 ps nonempty =>
    rintro qs _ left (_ | _)
    obtain _ | ⟨first, rest⟩ := left
    · exact absurd rfl nonempty
    · rw [mulPowers, mulPowers]
      · exact .ok (.cons first rest)
      · exact List.cons_ne_nil _ _
      · exact List.cons_ne_nil _ _
  | case3 p ps r rs less ih =>
    rintro _ _ (_ | ⟨first, left⟩) (_ | ⟨second, right⟩)
    rw [mulPowers, mulPowers, if_pos less, if_pos ((keeps first.id second.id).mp less)]
    exact (ih left (.cons second right)).bind fun _ _ rest => .ok (.cons first rest)
  | case4 p ps r rs notLess less ih =>
    rintro _ _ (_ | ⟨first, left⟩) (_ | ⟨second, right⟩)
    rw [mulPowers, mulPowers, if_neg notLess, if_pos less,
      if_neg (mt (keeps first.id second.id).mpr notLess), if_pos ((keeps second.id first.id).mp less)]
    exact (ih (.cons first left) right).bind fun _ _ rest => .ok (.cons second rest)
  | case5 p ps r rs notLess notGreater ih =>
    rintro _ _ (_ | ⟨first, left⟩) (_ | ⟨second, right⟩)
    rw [mulPowers, mulPowers, if_neg notLess, if_neg notGreater,
      if_neg (mt (keeps first.id second.id).mpr notLess),
      if_neg (mt (keeps second.id first.id).mpr notGreater), first.degree, second.degree]
    -- Both degrees are the same on either side, so the gate does the same with their sum.
    refine (gate_concur _).bind ?_
    rintro degree _ rfl
    refine (ih left right).bind fun _ _ rest => .ok ?_
    split
    · exact rest
    · exact .cons ⟨first.id, rfl⟩ rest

/-- Multiples of renamed monomials are renamed. -/
theorem scaleMonomials_concur (q : Rat) {ms ns : List Monomial}
    (renamed : List.Forall₂ (Monomial.Renamed rel) ms ns) :
    Concur (List.Forall₂ (Monomial.Renamed rel)) (Multivector.scaleMonomials q ms)
      (Multivector.scaleMonomials q ns) := by
  refine .mapM renamed fun m n given => ?_
  rw [given.coefficient]
  refine (gate_concur _).bind ?_
  rintro p _ rfl
  exact .ok ⟨rfl, given.powers⟩

namespace Multivector

variable {a b c d : Multivector}

/-- Renamed multivectors lie on the same blades. -/
theorem Renamed.elements_eq (renamed : a.Renamed dim rel b) : a.elements = b.elements :=
  List.forall₂_eq_eq_eq.le _ _ (List.rel_map (fun _ _ given => given.element) renamed.terms)

/-- Renamed multivectors lie on blades of the space. -/
theorem Renamed.bounded (renamed : a.Renamed dim rel b) : ∀ e ∈ b.elements, e < dim := by
  have blades : List.Forall₂ (fun _ f => f < dim) a.elements b.elements :=
    List.rel_map (fun _ _ given => given.bounded) renamed.terms
  rw [renamed.elements_eq, List.forall₂_same] at blades
  exact blades

/-- A plain multivector on increasing blades of the space is renamed to itself, if its ids are. -/
theorem renamed_self (bounded : ∀ e ∈ a.elements, e < dim) (ordered : a.elements.Pairwise (· < ·))
    (plain : a.isPlain = true) (kept : ∀ e ∈ a.entries, ∀ p ∈ e.monomial.powers, rel p.id p.id) :
    a.Renamed dim rel a := by
  -- Every part of the multivector corresponds to itself.
  refine ⟨List.forall₂_same.mpr fun t inside => ⟨rfl, bounded _ (List.mem_map_of_mem inside), ?_⟩,
    ordered, plain, plain⟩
  refine List.forall₂_same.mpr fun m member => ⟨rfl, List.forall₂_same.mpr fun p given => ⟨?_, rfl⟩⟩
  exact kept ⟨t.element, m⟩ (mem_entries inside (List.mem_map_of_mem member)) p given

/-- What is renamed is equal to itself in the same way. -/
theorem Renamed.self_right (renamed : a.Renamed dim rel b) : b.Renamed dim Eq b :=
  renamed_self renamed.bounded renamed.ordered renamed.right fun _ _ _ _ => rfl

/-- What something is renamed from is equal to itself in the same way. -/
theorem Renamed.self_left (renamed : a.Renamed dim rel b) : a.Renamed dim Eq a :=
  renamed_self (renamed.elements_eq ▸ renamed.bounded) (renamed.elements_eq ▸ renamed.ordered)
    renamed.left fun _ _ _ _ => rfl

/-- Renamed multivectors have as many terms. -/
theorem Renamed.length_eq (renamed : a.Renamed dim rel b) : a.terms.length = b.terms.length :=
  renamed.terms.length_eq

/-- The entries of renamed multivectors are renamed. -/
theorem Renamed.entries (renamed : a.Renamed dim rel b) :
    List.Forall₂ (Entry.Renamed dim rel) a.entries b.entries :=
  List.rel_flatMap renamed.terms fun _ _ term => List.rel_map
    (fun _ _ monomial => ⟨term.element, term.bounded, monomial⟩) term.monomials

/-- A plain multivector is asked for on both sides. -/
theorem Renamed.requirePlain (renamed : a.Renamed dim rel b) :
    a.requirePlain = .ok () ∧ b.requirePlain = .ok () := by
  rw [Multivector.requirePlain, Multivector.requirePlain, if_pos renamed.left, if_pos renamed.right]
  exact ⟨rfl, rfl⟩

/-- A traversal of terms that keeps every blade keeps all of them. -/
theorem elements_of_mapM {f : Term → Result Term} (same : ∀ {s t}, f s = .ok t → t.element = s.element)
    {ss ts : List Term} (mapped : ss.mapM f = .ok ts) :
    ts.map (·.element) = ss.map (·.element) := by
  have pairs := Result.mapM_eq_ok.mp mapped
  induction pairs with
  | nil => rfl
  | cons first _ ih =>
    rw [List.map_cons, List.map_cons, same first, ih (Result.mapM_eq_ok.mpr ‹_›)]

/-- Multiples of renamed multivectors are renamed. -/
theorem Renamed.scale (renamed : a.Renamed dim rel b) (q : Rat) :
    Concur (Renamed dim rel) (a.scale q) (b.scale q) := by
  rw [Multivector.scale, Multivector.scale]
  split
  · -- A factor of zero leaves nothing, which corresponds to nothing.
    exact .ok renamed
  split
  · exact .ok ⟨.nil, .nil, rfl, rfl⟩
  rw [if_pos renamed.left, if_pos renamed.right]
  refine (Concur.mapM (S := Term.Renamed dim rel) renamed.terms fun s t given => ?_).given.bind
    fun _ _ made => .ok ⟨made.1, ?_, rfl, rfl⟩
  · exact (scaleMonomials_concur q given.monomials).bind fun _ _ monomials =>
      .ok ⟨given.element, given.bounded, monomials⟩
  · -- Only the coefficients change, so that the blades stay in order.
    rw [elements, elements_of_mapM (fun scaled => ?_) made.2.2]
    · exact renamed.ordered
    · obtain ⟨ms, -, done⟩ := Result.bind_eq_ok.mp scaled
      cases done
      rfl

/-- Renamed monomials merge alike. -/
theorem mergeMonomials_concur (keeps : KeepsOrder rel) (ms ns : List Monomial) :
    ∀ {ms' ns' : List Monomial}, List.Forall₂ (Monomial.Renamed rel) ms ms' →
      List.Forall₂ (Monomial.Renamed rel) ns ns' → Concur (List.Forall₂ (Monomial.Renamed rel))
        (mergeMonomials ms ns) (mergeMonomials ms' ns') := by
  -- The keys of renamed monomials compare alike, so both runs take the same branch.
  induction ms, ns using mergeMonomials.induct with
  | case1 ns =>
    rintro _ ns' (_ | _) right
    rw [mergeMonomials, mergeMonomials]
    exact .ok right
  | case2 ms nonempty =>
    rintro ms' _ left (_ | _)
    obtain _ | ⟨first, rest⟩ := left
    · exact absurd rfl nonempty
    · rw [mergeMonomials, mergeMonomials]
      · exact .ok (.cons first rest)
      · exact List.cons_ne_nil _ _
      · exact List.cons_ne_nil _ _
  | case3 m ms n ns ihLeft ihRight ihBoth =>
    rintro _ _ (_ | ⟨first, left⟩) (_ | ⟨second, right⟩)
    rw [mergeMonomials, mergeMonomials]
    refine (ofPowers_concur first.powers).bind fun _ _ key => ?_
    refine (ofPowers_concur second.powers).bind fun _ _ key' => ?_
    dsimp only
    rw [key.compare_eq keeps key', first.coefficient, second.coefficient]
    split
    · exact (ihLeft left (.cons second right)).bind fun _ _ rest => .ok (.cons first rest)
    · exact (ihRight (.cons first left) right).bind fun _ _ rest => .ok (.cons second rest)
    · -- Coefficients are the same on both sides, and so is their sum.
      refine (gate_concur _).bind ?_
      rintro q _ rfl
      refine (ihBoth left right).bind fun _ _ rest => .ok ?_
      split
      · exact rest
      · exact .cons ⟨rfl, first.powers⟩ rest

/-- Renamed terms merge alike. -/
theorem mergeTerms_concur (keeps : KeepsOrder rel) (ss ts : List Term) :
    ∀ {ss' ts' : List Term}, List.Forall₂ (Term.Renamed dim rel) ss ss' →
      List.Forall₂ (Term.Renamed dim rel) ts ts' → Concur (List.Forall₂ (Term.Renamed dim rel))
        (mergeTerms ss ts) (mergeTerms ss' ts') := by
  -- Terms are merged by blade, and blades are not renamed.
  induction ss, ts using mergeTerms.induct with
  | case1 ts =>
    rintro _ ts' (_ | _) right
    rw [mergeTerms, mergeTerms]
    exact .ok right
  | case2 ss nonempty =>
    rintro ss' _ left (_ | _)
    obtain _ | ⟨first, rest⟩ := left
    · exact absurd rfl nonempty
    · rw [mergeTerms, mergeTerms]
      · exact .ok (.cons first rest)
      · exact List.cons_ne_nil _ _
      · exact List.cons_ne_nil _ _
  | case3 s ss t ts less ih =>
    rintro _ _ (_ | ⟨first, left⟩) (_ | ⟨second, right⟩)
    rw [mergeTerms, mergeTerms, ← first.element, ← second.element, if_pos less, if_pos less]
    exact (ih left (.cons second right)).bind fun _ _ rest => .ok (.cons first rest)
  | case4 s ss t ts notLess less ih =>
    rintro _ _ (_ | ⟨first, left⟩) (_ | ⟨second, right⟩)
    rw [mergeTerms, mergeTerms, ← first.element, ← second.element, if_neg notLess, if_pos less,
      if_neg notLess, if_pos less]
    exact (ih (.cons first left) right).bind fun _ _ rest => .ok (.cons second rest)
  | case5 s ss t ts notLess notGreater ih =>
    rintro _ _ (_ | ⟨first, left⟩) (_ | ⟨second, right⟩)
    rw [mergeTerms, mergeTerms, ← first.element, ← second.element, if_neg notLess, if_neg notGreater,
      if_neg notLess, if_neg notGreater]
    refine (mergeMonomials_concur keeps _ _ first.monomials second.monomials).bind
      fun us vs merged => (ih left right).bind fun _ _ rest => .ok ?_
    -- The monomials of both sides cancel together.
    obtain _ | ⟨head, tail⟩ := merged
    · exact rest
    · exact .cons ⟨rfl, first.element ▸ first.bounded, .cons head tail⟩ rest

/-- Sums of renamed multivectors are renamed. -/
theorem Renamed.add (keeps : KeepsOrder rel) (left : a.Renamed dim rel b)
    (right : c.Renamed dim rel d) : Concur (Renamed dim rel) (a.add c) (b.add d) := by
  -- Every requirement is met on both sides, so that only the merges are compared.
  rw [Multivector.add, Multivector.add, left.requirePlain.1, left.requirePlain.2,
    right.requirePlain.1, right.requirePlain.2, Result.ok_bind, Result.ok_bind, Result.ok_bind,
    Result.ok_bind]
  exact (mergeTerms_concur keeps _ _ left.terms right.terms).given.bind fun _ _ merged =>
    .ok ⟨merged.1, ordered_mergeTerms _ _ left.ordered right.ordered merged.2.2, rfl, rfl⟩

/-- Reversals of renamed multivectors are renamed. -/
theorem Renamed.reverse (renamed : a.Renamed dim rel b) :
    Concur (Renamed dim rel) a.reverse b.reverse := by
  rw [Multivector.reverse, Multivector.reverse, renamed.requirePlain.1, renamed.requirePlain.2,
    Result.ok_bind, Result.ok_bind]
  refine .ok ⟨List.rel_map (fun s t given => ?_) renamed.terms, ?_, rfl, rfl⟩
  · -- The sign depends on the blade alone.
    rw [given.element]
    split
    · refine ⟨rfl, given.bounded, List.rel_map (fun m n same => ?_) given.monomials⟩
      exact ⟨congrArg (-·) same.coefficient, same.powers⟩
    · exact given
  · have same : (b.terms.map fun t => if Blade.reversionSign t.element < 0 then
        (⟨t.element, oppositeMonomials t.monomials⟩ : Term) else t).map (·.element) = b.elements := by
      rw [List.map_map]
      refine List.map_congr_left fun t _ => ?_
      dsimp only [Function.comp_apply]
      split <;> rfl
    rw [elements, same]
    exact renamed.ordered

/-- Duals of renamed multivectors are renamed. -/
theorem Renamed.dual (keeps : KeepsOrder rel) {n : Nat} (renamed : a.Renamed (2 ^ n) rel b) :
    Concur (Renamed (2 ^ n) rel) (a.dual n) (b.dual n) := by
  rw [Multivector.dual, Multivector.dual, renamed.requirePlain.1, renamed.requirePlain.2,
    Result.ok_bind, Result.ok_bind]
  -- Blades go over into their complements on both sides.
  refine collate_concur keeps (List.rel_map (fun e f given => ?_) renamed.entries) 1 1
  rw [given.element, given.monomial.coefficient]
  exact ⟨rfl, Blade.complement_lt given.bounded, rfl, given.monomial.powers⟩

/-- Projections of renamed multivectors are renamed. -/
theorem Renamed.extract (renamed : a.Renamed dim rel b) (element : Nat) :
    Concur (Renamed dim rel) (a.extract element) (b.extract element) := by
  rw [Multivector.extract, Multivector.extract, renamed.elements_eq, renamed.length_eq]
  generalize searchFrom b.elements.toArray element 0 b.terms.length = found
  have empty : Renamed dim rel { a with terms := [] } { b with terms := [] } :=
    ⟨.nil, .nil, renamed.left, renamed.right⟩
  -- The search ends at the same position on both sides.
  have terms := forall₂_getElem? renamed.terms found
  generalize a.terms[found]? = s at terms
  generalize b.terms[found]? = t at terms
  cases terms with
  | none => exact .ok empty
  | some given =>
    dsimp only
    rw [given.element]
    split
    · rename_i same
      -- The term that is found is copied to the blade with the same multiplier.
      have copied : Concur (List.Forall₂ (Term.Renamed dim rel)) (copyTerm _ 1 element)
          (copyTerm _ 1 element) :=
        (scaleMonomials_concur 1 given.monomials).bind fun _ _ monomials =>
          .ok (.cons ⟨rfl, same ▸ given.bounded, monomials⟩ .nil)
      refine copied.given.bind fun _ _ made => .ok ⟨made.1, ?_, renamed.left, renamed.right⟩
      obtain ⟨ms, -, done⟩ := Result.bind_eq_ok.mp made.2.2
      cases done
      exact List.pairwise_singleton _ _
    · exact .ok empty

end Multivector

/-- A renamed term is a renamed multivector. -/
theorem Term.Renamed.singleton {s t : Term} (renamed : s.Renamed dim rel t) :
    Multivector.Renamed dim rel { terms := [s] } { terms := [t] } :=
  ⟨.cons renamed .nil, List.pairwise_singleton _ _, rfl, rfl⟩

/-- All products of renamed monomials are renamed. -/
theorem distribute_concur (keeps : KeepsOrder rel) {ms ms' ns ns' : List Monomial}
    (left : List.Forall₂ (Monomial.Renamed rel) ms ms')
    (right : List.Forall₂ (Monomial.Renamed rel) ns ns') {element : Nat} (bounded : element < dim)
    (sign : Int) : Concur (List.Forall₂ (Entry.Renamed dim rel)) (distribute ms ns element sign)
      (distribute ms' ns' element sign) := by
  refine (Concur.mapM left fun m m' first => Concur.mapM (S := Entry.Renamed dim rel) right
    fun n n' second => ?_).bind fun _ _ rows => .ok (List.rel_flatten rows)
  rw [first.coefficient, second.coefficient]
  refine (gate_concur _).bind ?_
  rintro q _ rfl
  exact (mulPowers_concur keeps _ _ first.powers second.powers).bind fun _ _ powers =>
    .ok ⟨rfl, bounded, rfl, powers⟩

namespace Metric

variable {m : Metric} {matrix : PairMatrix} {s t : Term} {a b : Multivector}

/-- Images of renamed terms are renamed. -/
theorem termImages_concur (marked : m.isDiagonal = false) (halves : matrix.Halves)
    (renamed : s.Renamed m.dim rel t) : Concur (List.Forall₂ (Entry.Renamed m.dim rel))
      (m.termImages matrix s) (m.termImages matrix t) := by
  -- The images depend on the blade alone.
  rw [termImages, termImages, renamed.element, pairImages_eq halves, Result.ok_bind, Result.ok_bind]
  have images : List.Forall₂ (fun i j => i = j ∧ j.1 < m.dim)
      ((m.images matrix t.element).filter (·.2 ≠ 0)) ((m.images matrix t.element).filter (·.2 ≠ 0)) :=
    List.forall₂_same.mpr fun image inside =>
      ⟨rfl, images_lt_dim marked renamed.bounded (List.mem_of_mem_filter inside)⟩
  refine (Concur.mapM (S := List.Forall₂ (Entry.Renamed m.dim rel)) images ?_).bind
    fun _ _ copies => .ok (List.rel_flatten copies)
  rintro image _ ⟨rfl, bounded⟩
  refine Concur.mapM renamed.monomials fun n n' same => ?_
  rw [same.coefficient]
  refine (gate_concur _).bind ?_
  rintro q _ rfl
  exact .ok ⟨rfl, bounded, rfl, same.powers⟩

/-- Renamed multivectors stay renamed in another basis. -/
theorem changeBasis_concur (keeps : KeepsOrder rel) (marked : m.isDiagonal = false)
    (halves : matrix.Halves) (renamed : a.Renamed m.dim rel b) :
    Concur (Multivector.Renamed m.dim rel) (m.changeBasis matrix a) (m.changeBasis matrix b) := by
  -- No deferred function stands in the way.
  have left : a.op = .identity := of_decide_eq_true renamed.left
  have right : b.op = .identity := of_decide_eq_true renamed.right
  rw [changeBasis, changeBasis, left, right]
  exact (Concur.mapM renamed.terms fun s t => termImages_concur marked halves).bind fun _ _ images =>
    collate_concur keeps (List.rel_flatten images) _ _

/-- Renamed multivectors stay renamed over another basis, if there is one. -/
theorem change_concur (keeps : KeepsOrder rel) (halves : matrix.Halves)
    (renamed : a.Renamed m.dim rel b) : Concur (Multivector.Renamed m.dim rel)
      (if m.isDiagonal then .ok a else m.changeBasis matrix a)
      (if m.isDiagonal then .ok b else m.changeBasis matrix b) := by
  split
  · exact .ok renamed
  · exact changeBasis_concur keeps (Bool.eq_false_iff.mpr ‹_›) halves renamed

/-- Renamed multivectors stay renamed over the orthogonal basis. -/
theorem diagonalize_concur (keeps : KeepsOrder rel) (renamed : a.Renamed m.dim rel b) :
    Concur (Multivector.Renamed m.dim rel) (m.diagonalize a) (m.diagonalize b) :=
  change_concur keeps m.halves_toDiagonal renamed

/-- Renamed multivectors stay renamed over the working basis. -/
theorem undiagonalize_concur (keeps : KeepsOrder rel) (renamed : a.Renamed m.dim rel b) :
    Concur (Multivector.Renamed m.dim rel) (m.undiagonalize a) (m.undiagonalize b) :=
  change_concur keeps m.halves_toWorking renamed

end Metric

namespace BladeProduct

variable {kind : BladeProduct} {m : Metric} {s s' t t' : Term} {a b c d : Multivector}

/-- Products of renamed terms that are looked up directly are renamed. -/
theorem directPair_concur (keeps : KeepsOrder rel) (left : s.Renamed m.dim rel s')
    (right : t.Renamed m.dim rel t') : Concur (List.Forall₂ (Entry.Renamed m.dim rel))
      (kind.directPair m s t) (kind.directPair m s' t') := by
  -- The structure coefficient depends on the blades alone.
  rw [directPair, directPair, left.element, right.element,
    entry_eq kind m left.bounded right.bounded, Result.ok_bind, Result.ok_bind]
  dsimp only
  split
  · exact .ok .nil
  · rename_i nonzero
    refine distribute_concur keeps left.monomials right.monomials ?_ _
    -- Only a product of zero is not on the blade of the factors that are left.
    have unequal : kind.coefficient m.signature s'.element t'.element ≠ 0 := nonzero
    rw [weighted, if_neg unequal]
    exact m.xor_lt_dim left.bounded right.bounded

/-- Pairs of renamed terms have renamed entries. -/
theorem rows_concur {f : Term → Term → Result (List Entry)} {g : Term → Term → Result (List Entry)}
    (keeps : KeepsOrder rel) {ss ss' ts ts' : List Term}
    (left : List.Forall₂ (Term.Renamed dim rel) ss ss')
    (right : List.Forall₂ (Term.Renamed dim rel) ts ts')
    (each : ∀ s s' t t', s.Renamed dim rel s' → t.Renamed dim rel t' →
      Concur (List.Forall₂ (Entry.Renamed dim rel)) (f s t) (g s' t')) :
    Concur (Multivector.Renamed dim rel)
      (ss.mapM (fun s => ts.mapM (f s)) >>= fun rows => collate (rows.map List.flatten).flatten)
      (ss'.mapM (fun s => ts'.mapM (g s)) >>= fun rows => collate (rows.map List.flatten).flatten) :=
  (Concur.mapM left fun s s' first => Concur.mapM right fun t t' second =>
    each s s' t t' first second).bind fun _ _ rows => collate_concur keeps
      (List.rel_flatten (List.rel_map (fun _ _ row => List.rel_flatten row) rows)) 1 1

/-- Products over an orthogonal basis of renamed terms are renamed. -/
theorem directProduct_concur (keeps : KeepsOrder rel) {ss ss' ts ts' : List Term}
    (left : List.Forall₂ (Term.Renamed m.dim rel) ss ss')
    (right : List.Forall₂ (Term.Renamed m.dim rel) ts ts') :
    Concur (Multivector.Renamed m.dim rel) (kind.directProduct m ss ts)
      (kind.directProduct m ss' ts') :=
  rows_concur keeps left right fun _ _ _ _ => directPair_concur keeps

/-- Products of renamed terms are renamed, in whichever basis they are taken. -/
theorem termPair_concur (keeps : KeepsOrder rel) (left : s.Renamed m.dim rel s')
    (right : t.Renamed m.dim rel t') : Concur (List.Forall₂ (Entry.Renamed m.dim rel))
      (kind.termPair m s t) (kind.termPair m s' t') := by
  rw [termPair, termPair, left.element, right.element]
  split
  · -- Over the orthogonal basis both factors are changed, multiplied and changed back.
    refine (Metric.diagonalize_concur keeps left.singleton).bind fun _ _ first => ?_
    refine (Metric.diagonalize_concur keeps right.singleton).bind fun _ _ second => ?_
    refine (directProduct_concur keeps first.terms second.terms).bind fun _ _ product => ?_
    exact (Metric.undiagonalize_concur keeps product).bind fun _ _ back => .ok back.entries
  · exact directPair_concur keeps left right

/-- Products of renamed multivectors are renamed. -/
theorem product_concur (keeps : KeepsOrder rel) (left : a.Renamed m.dim rel b)
    (right : c.Renamed m.dim rel d) :
    Concur (Multivector.Renamed m.dim rel) (kind.product m a c) (kind.product m b d) := by
  rw [product, product, left.requirePlain.1, left.requirePlain.2, right.requirePlain.1,
    right.requirePlain.2, Result.ok_bind, Result.ok_bind, Result.ok_bind, Result.ok_bind]
  exact rows_concur keeps left.terms right.terms fun _ _ _ _ => termPair_concur keeps

end BladeProduct

namespace Multivector

variable {a b c d : Multivector}

/-- A scalar with a single monomial, of at most one power and with a coefficient to divide by. -/
structure IsDivisor (b : Multivector) (m : Monomial) : Prop where
  terms : b.terms = [⟨0, [m]⟩]
  short : m.powers.length ≤ 1
  nonzero : m.coefficient ≠ 0

/-- What is divided by is a divisor. -/
theorem isDivisor_of_divide (made : a.divide b = .ok c) : ∃ m, b.IsDivisor m := by
  -- The steps of a division up to the inverse tell what the divisor looks like.
  obtain ⟨u, -, rest⟩ := Result.bind_eq_ok.mp made
  obtain ⟨v, -, rest⟩ := Result.bind_eq_ok.mp rest
  obtain ⟨m, found, rest⟩ := Result.bind_eq_ok.mp rest
  split at rest
  · obtain ⟨w, failed, -⟩ := Result.bind_eq_ok.mp rest
    cases failed
  rename_i short
  obtain ⟨q, inverse, -⟩ := Result.bind_eq_ok.mp rest
  refine ⟨m, divisorMonomial_eq_ok.mp found, not_lt.mp short, fun zero => ?_⟩
  rw [reciprocal, if_pos zero] at inverse
  cases inverse

/-- Divisors divide every entry of a plain multivector. -/
theorem IsDivisor.divide_eq {m : Monomial} (divisor : b.IsDivisor m)
    (left : a.requirePlain = .ok ()) (right : b.requirePlain = .ok ()) :
    a.divide b = a.entries.mapM (Entry.quotient m) >>= fun quotients => collate quotients := by
  rw [divide, left, right, divisorMonomial_eq_ok.mpr divisor.terms, Result.ok_bind, Result.ok_bind,
    Result.ok_bind, if_neg (not_lt.mpr divisor.short), reciprocal, if_neg divisor.nonzero]
  rfl

/-- What a divisor is renamed from is a divisor. -/
theorem Renamed.isDivisor (renamed : a.Renamed dim rel b) {n : Monomial} (divisor : b.IsDivisor n) :
    ∃ m, a.IsDivisor m ∧ m.Renamed rel n := by
  -- The other side has one term with one monomial as well.
  have pairs := renamed.terms
  rw [divisor.terms, List.forall₂_cons_right_iff] at pairs
  obtain ⟨⟨element, monomials⟩, others, ⟨same, -, given⟩, none, terms⟩ := pairs
  obtain rfl := List.forall₂_nil_right_iff.mp none
  obtain ⟨m, rest, first, none, rfl⟩ := List.forall₂_cons_right_iff.mp given
  obtain rfl := List.forall₂_nil_right_iff.mp none
  obtain rfl : element = 0 := same
  exact ⟨m, ⟨terms, first.powers.length_eq.trans_le divisor.short,
    first.coefficient ▸ divisor.nonzero⟩, first⟩

/-- Quotients of renamed multivectors are renamed, where there is a divisor. -/
theorem Renamed.divide (keeps : KeepsOrder rel) (left : a.Renamed dim rel b)
    (right : c.Renamed dim rel d) {n : Monomial} (divisor : d.IsDivisor n) :
    Concur (Renamed dim rel) (a.divide c) (b.divide d) := by
  obtain ⟨m, divisor', same⟩ := right.isDivisor divisor
  rw [divisor'.divide_eq left.requirePlain.1 right.requirePlain.1,
    divisor.divide_eq left.requirePlain.2 right.requirePlain.2]
  refine (Concur.mapM left.entries fun e f given => ?_).bind fun _ _ quotients =>
    collate_concur keeps quotients 1 1
  -- The inverse is the same, since the coefficient of the divisor is.
  rw [Entry.quotient, Entry.quotient, given.element, given.monomial.coefficient, same.coefficient]
  refine (gate_concur _).bind ?_
  rintro q _ rfl
  refine (mulPowers_concur keeps _ _ given.monomial.powers (List.rel_map (fun p p' power => ?_)
    same.powers)).bind fun _ _ powers => .ok ⟨rfl, given.bounded, rfl, powers⟩
  exact ⟨power.id, congrArg (-·) power.degree⟩

/-- Multivectors on the same increasing blades of a space. -/
structure SameBlades (dim : Nat) (a b : Multivector) : Prop where
  elements : a.elements = b.elements
  ordered : b.elements.Pairwise (· < ·)
  bounded : ∀ e ∈ b.elements, e < dim

/-- Renamed multivectors lie on the same blades. -/
theorem Renamed.sameBlades (renamed : a.Renamed dim rel b) : a.SameBlades dim b :=
  ⟨renamed.elements_eq, renamed.ordered, renamed.bounded⟩

/-- There are no more terms than blades of the space. -/
theorem SameBlades.length_le (same : a.SameBlades dim b) : b.terms.length ≤ dim := by
  -- The blades are distinct numbers below the dimension.
  have small : b.elements.toFinset ⊆ Finset.range dim := fun e inside =>
    Finset.mem_range.mpr (same.bounded e (List.mem_toFinset.mp inside))
  have distinct : b.elements.Nodup := same.ordered.imp fun less => less.ne
  have count := Finset.card_le_card small
  rwa [List.toFinset_card_of_nodup distinct, Finset.card_range, Multivector.elements,
    List.length_map] at count

/-- Renamed multivectors vanish alike. -/
theorem Renamed.isZero_eq (renamed : a.Renamed dim rel b) : a.isZero = b.isZero := by
  rw [isZero, isZero, Bool.eq_iff_iff, List.isEmpty_iff_length_eq_zero,
    List.isEmpty_iff_length_eq_zero, renamed.length_eq]

/-- A number lies on the scalar blade. -/
theorem sameBlades_basis {element : Nat} (inside : element < dim) (q : Rat) :
    (basis element q).SameBlades dim (basis element q) := by
  refine ⟨rfl, (canonical_basis element q).ordered, fun e member => ?_⟩
  rw [Multivector.elements, basis] at member
  split at member
  · simp at member
  · obtain rfl : e = element := by simpa using member
    exact inside

/-- A function that is deferred for a multivector is deferred for what it is renamed from. -/
theorem Renamed.withOp (renamed : a.Renamed dim rel b) {op : Deferred} (nonempty : 0 < dim)
    (made : b.withOp op = .ok d) : ∃ c, a.withOp op = .ok c ∧ c.SameBlades dim d := by
  -- What is looked at are the blades, which are the same.
  obtain ⟨-, ⟨empty, rfl⟩ | ⟨single, rfl⟩⟩ := withOp_eq_ok.mp made
  · refine ⟨_, withOp_eq_ok.mpr ⟨renamed.left, .inl ⟨renamed.elements_eq.trans empty, rfl⟩⟩, ?_⟩
    split
    · exact sameBlades_basis nonempty 1
    · exact sameBlades_basis nonempty 0
  · exact ⟨_, withOp_eq_ok.mpr ⟨renamed.left, .inr ⟨renamed.elements_eq.trans single, rfl⟩⟩,
      renamed.elements_eq, renamed.ordered, renamed.bounded⟩

/-- Fresh indeterminates on the same blades are renamed. -/
theorem fresh_renamed {elements : List Nat} (ordered : elements.Pairwise (· < ·))
    (bounded : ∀ e ∈ elements, e < dim) {i j : Nat}
    (related : ∀ k < elements.length, rel (i + k) (j + k)) :
    (fresh i elements).Renamed dim rel (fresh j elements) := by
  refine ⟨?_, by rwa [elements_fresh], rfl, rfl⟩
  clear ordered
  -- The next ids are related from the second blade on.
  induction elements generalizing i j with
  | nil => exact .nil
  | cons element rest ih =>
    obtain ⟨first, others⟩ := List.forall_mem_cons.mp bounded
    rw [fresh_cons, fresh_cons]
    refine .cons ⟨rfl, first, .cons ⟨rfl, .cons ⟨related 0 (by simp), rfl⟩ .nil⟩ .nil⟩
      (ih others fun k small => ?_)
    have next := related (k + 1) (by simpa using small)
    rwa [Nat.add_assoc, Nat.add_assoc, Nat.add_comm 1]

end Multivector

end Clifford
