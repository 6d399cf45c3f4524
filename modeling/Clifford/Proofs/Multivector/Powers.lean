import Clifford.Proofs.Multivector.Canonical
import Clifford.Proofs.Rational.Exact

/-! Products of powers: merging two sequences keeps the order of ids, and multiplies the values of
the sequences wherever degrees are whole and values of powers multiply. -/

namespace Clifford

/-- Where a power of a product comes from. -/
inductive MergedFrom (ps qs : List Power) (r : Power) : Prop
  | left (member : r ∈ ps)
  | right (member : r ∈ qs)
  | both (p q : Power) (left : p ∈ ps) (right : q ∈ qs) (ids : p.id = r.id ∧ q.id = r.id)
      (nonzero : r.degree ≠ 0)

namespace MergedFrom

variable {ps qs : List Power} {r : Power}

/-- Longer left factors hold what shorter ones do. -/
theorem consLeft (p : Power) (source : MergedFrom ps qs r) : MergedFrom (p :: ps) qs r := by
  cases source with
  | left member => exact .left (List.mem_cons_of_mem _ member)
  | right member => exact .right member
  | both p q left right ids nonzero =>
    exact .both p q (List.mem_cons_of_mem _ left) right ids nonzero

/-- Longer right factors hold what shorter ones do. -/
theorem consRight (q : Power) (source : MergedFrom ps qs r) : MergedFrom ps (q :: qs) r := by
  cases source with
  | left member => exact .left member
  | right member => exact .right (List.mem_cons_of_mem _ member)
  | both p q left right ids nonzero =>
    exact .both p q left (List.mem_cons_of_mem _ right) ids nonzero

/-- The id of a power of a product is an id of one of its factors. -/
theorem id_mem (source : MergedFrom ps qs r) :
    (∃ p ∈ ps, p.id = r.id) ∨ ∃ q ∈ qs, q.id = r.id := by
  cases source with
  | left member => exact .inl ⟨r, member, rfl⟩
  | right member => exact .inr ⟨r, member, rfl⟩
  | both p q left right ids nonzero => exact .inl ⟨p, left, ids.1⟩

end MergedFrom

/-- Every power of a product is a power of a factor or the sum of two. -/
theorem mem_mulPowers (ps qs : List Power) : ∀ {rs : List Power}, mulPowers ps qs = .ok rs →
    ∀ r ∈ rs, MergedFrom ps qs r := by
  -- Each step of the merge takes a power of one factor or adds two of the same id.
  induction ps, qs using mulPowers.induct with
  | case1 qs =>
    intro rs product r inside
    rw [mulPowers] at product
    cases product
    exact .right inside
  | case2 ps nonempty =>
    intro rs product r inside
    rw [mulPowers] at product
    · cases product
      exact .left inside
    · exact nonempty
  | case3 p ps q qs less ih =>
    intro rs product r inside
    rw [mulPowers, if_pos less] at product
    obtain ⟨rest, later, done⟩ := Result.bind_eq_ok.mp product
    cases done
    rcases List.mem_cons.mp inside with rfl | old
    · exact .left (by simp)
    · exact (ih later r old).consLeft p
  | case4 p ps q qs notLess greater ih =>
    intro rs product r inside
    rw [mulPowers, if_neg notLess, if_pos greater] at product
    obtain ⟨rest, later, done⟩ := Result.bind_eq_ok.mp product
    cases done
    rcases List.mem_cons.mp inside with rfl | old
    · exact .right (by simp)
    · exact (ih later r old).consRight q
  | case5 p ps q qs notLess notGreater ih =>
    intro rs product r inside
    rw [mulPowers, if_neg notLess, if_neg notGreater] at product
    obtain ⟨degree, -, more⟩ := Result.bind_eq_ok.mp product
    obtain ⟨rest, later, done⟩ := Result.bind_eq_ok.mp more
    cases done
    split at inside
    · exact ((ih later r inside).consLeft p).consRight q
    · rename_i nonzero
      rcases List.mem_cons.mp inside with rfl | old
      · exact .both p q (by simp) (by simp) ⟨rfl, by show q.id = p.id; omega⟩ nonzero
      · exact ((ih later r old).consLeft p).consRight q

/-- Products of powers without a degree of zero have none. -/
theorem nonzero_mulPowers {ps qs rs : List Power} (left : ∀ p ∈ ps, p.degree ≠ 0)
    (right : ∀ q ∈ qs, q.degree ≠ 0) (product : mulPowers ps qs = .ok rs) :
    ∀ r ∈ rs, r.degree ≠ 0 := by
  intro r inside
  cases mem_mulPowers ps qs product r inside with
  | left member => exact left r member
  | right member => exact right r member
  | both p q left right ids nonzero => exact nonzero

/-- A power in front of powers with larger ids keeps them increasing. -/
theorem increasing_cons {p : Power} {ps : List Power} :
    Increasing (p :: ps) ↔ (∀ q ∈ ps, p.id < q.id) ∧ Increasing ps := by
  simp [Increasing]

/-- An id below those of both factors is below those of the product. -/
theorem above_mulPowers {id : Nat} {ps qs rs : List Power} (product : mulPowers ps qs = .ok rs)
    (left : ∀ p ∈ ps, id < p.id) (right : ∀ q ∈ qs, id < q.id) : ∀ r ∈ rs, id < r.id := by
  intro r inside
  rcases (mem_mulPowers ps qs product r inside).id_mem with ⟨p, member, same⟩ | ⟨q, member, same⟩
  · exact same ▸ left p member
  · exact same ▸ right q member

/-- Products of increasing powers increase. -/
theorem increasing_mulPowers (ps qs : List Power) : ∀ {rs : List Power},
    Increasing ps → Increasing qs → mulPowers ps qs = .ok rs → Increasing rs := by
  -- The power with the lowest id comes first, and everything that follows lies above it.
  induction ps, qs using mulPowers.induct with
  | case1 qs =>
    intro rs _ right product
    rw [mulPowers] at product
    cases product
    exact right
  | case2 ps nonempty =>
    intro rs left _ product
    rw [mulPowers] at product
    · cases product
      exact left
    · exact nonempty
  | case3 p ps q qs less ih =>
    intro rs left right product
    rw [mulPowers, if_pos less] at product
    obtain ⟨rest, later, done⟩ := Result.bind_eq_ok.mp product
    cases done
    obtain ⟨aboveLeft, leftRest⟩ := increasing_cons.mp left
    refine increasing_cons.mpr ⟨above_mulPowers later aboveLeft ?_, ih leftRest right later⟩
    exact List.forall_mem_cons.mpr
      ⟨less, fun q' old => less.trans ((increasing_cons.mp right).1 q' old)⟩
  | case4 p ps q qs notLess greater ih =>
    intro rs left right product
    rw [mulPowers, if_neg notLess, if_pos greater] at product
    obtain ⟨rest, later, done⟩ := Result.bind_eq_ok.mp product
    cases done
    obtain ⟨aboveRight, rightRest⟩ := increasing_cons.mp right
    refine increasing_cons.mpr ⟨above_mulPowers later ?_ aboveRight, ih left rightRest later⟩
    exact List.forall_mem_cons.mpr
      ⟨greater, fun p' old => greater.trans ((increasing_cons.mp left).1 p' old)⟩
  | case5 p ps q qs notLess notGreater ih =>
    intro rs left right product
    rw [mulPowers, if_neg notLess, if_neg notGreater] at product
    obtain ⟨degree, -, more⟩ := Result.bind_eq_ok.mp product
    obtain ⟨rest, later, done⟩ := Result.bind_eq_ok.mp more
    obtain ⟨aboveLeft, leftRest⟩ := increasing_cons.mp left
    obtain ⟨aboveRight, rightRest⟩ := increasing_cons.mp right
    -- Powers of the same id become one, or cancel.
    have increasing := ih leftRest rightRest later
    cases done
    split
    · exact increasing
    · have same : p.id = q.id := by omega
      exact increasing_cons.mpr ⟨above_mulPowers later aboveLeft (same ▸ aboveRight), increasing⟩

/-- Whole degrees add up. -/
theorem exists_totalDegree {powers : List Power} (whole : ∀ p ∈ powers, Dyadic 0 p.degree) :
    ∃ degree, totalDegree powers = .ok degree := by
  -- The sum so far stays whole.
  have general : ∀ sum, Dyadic 0 sum →
      ∃ degree, powers.foldlM (fun total power => gatedAdd total power.degree) sum =
        .ok degree := by
    induction powers with
    | nil => exact fun sum _ => ⟨sum, rfl⟩
    | cons p rest ih =>
      intro sum integral
      have degree := whole p (by simp)
      rw [List.foldlM_cons, gatedAdd_eq_ok integral degree (by decide), Result.ok_bind]
      exact ih (fun q inside => whole q (List.mem_cons_of_mem _ inside)) _ (integral.add degree)
  exact general 0 (Dyadic.zero 0)

/-- Whole degrees give a key. -/
theorem exists_key {powers : List Power} (whole : ∀ p ∈ powers, Dyadic 0 p.degree) :
    ∃ key, MonomialKey.ofPowers powers = .ok key := by
  obtain ⟨degree, sum⟩ := exists_totalDegree whole
  exact ⟨⟨degree, powers⟩, by rw [MonomialKey.ofPowers, sum]; rfl⟩

/-- Values of powers with whole degrees that multiply where the degrees of an id are added. -/
structure PowerValue (M : Type) [CommMonoid M] where
  value : Power → M
  Admits : Power → Prop
  whole : ∀ {p}, Admits p → Dyadic 0 p.degree
  admits_add : ∀ {p q}, Admits p → Admits q → p.id = q.id → Admits ⟨p.id, p.degree + q.degree⟩
  value_add : ∀ {p q}, Admits p → Admits q → p.id = q.id →
    value ⟨p.id, p.degree + q.degree⟩ = value p * value q
  value_zero : ∀ {p}, p.degree = 0 → value p = 1

/-- Whole degrees of one id add up to a whole degree. -/
theorem Power.dyadic_add {p q : Power} (left : Dyadic 0 p.degree) (right : Dyadic 0 q.degree)
    (_ : p.id = q.id) : Dyadic 0 (p.degree + q.degree) := left.add right

namespace PowerValue

variable {M : Type} [CommMonoid M] (v : PowerValue M)

/-- The value of a sequence of powers. -/
def product (powers : List Power) : M := (powers.map v.value).prod

/-- Every power of a sequence is admitted. -/
def AdmitsAll (powers : List Power) : Prop := ∀ p ∈ powers, v.Admits p

/-- Sequences of admitted powers have a product, whose value is the product of their values. -/
theorem exists_mulPowers (ps qs : List Power) : v.AdmitsAll ps → v.AdmitsAll qs →
    ∃ rs, mulPowers ps qs = .ok rs ∧ v.AdmitsAll rs ∧
      v.product rs = v.product ps * v.product qs := by
  induction ps, qs using mulPowers.induct with
  | case1 qs =>
    intro _ right
    exact ⟨qs, by rw [mulPowers], right, by simp [product]⟩
  | case2 ps nonempty =>
    intro left _
    exact ⟨ps, by rw [mulPowers]; exact nonempty, left, by simp [product]⟩
  | case3 p ps q qs less ih =>
    -- The power with the lower id stands alone.
    intro left right
    obtain ⟨rest, later, admitted, value⟩ :=
      ih (fun x inside => left x (List.mem_cons_of_mem _ inside)) right
    refine ⟨p :: rest, by rw [mulPowers, if_pos less, later]; rfl, ?_, ?_⟩
    · exact List.forall_mem_cons.mpr ⟨left p (by simp), admitted⟩
    · simp only [product, List.map_cons, List.prod_cons] at value ⊢
      rw [value, mul_assoc]
  | case4 p ps q qs notLess greater ih =>
    intro left right
    obtain ⟨rest, later, admitted, value⟩ :=
      ih left fun x inside => right x (List.mem_cons_of_mem _ inside)
    refine ⟨q :: rest, by rw [mulPowers, if_neg notLess, if_pos greater, later]; rfl, ?_, ?_⟩
    · exact List.forall_mem_cons.mpr ⟨right q (by simp), admitted⟩
    · simp only [product, List.map_cons, List.prod_cons] at value ⊢
      rw [value]
      exact mul_left_comm _ _ _
  | case5 p ps q qs notLess notGreater ih =>
    intro left right
    -- Both degrees belong to one id, so they are added.
    have same : p.id = q.id := by omega
    have first := left p (by simp)
    have second := right q (by simp)
    obtain ⟨rest, later, admitted, value⟩ :=
      ih (fun x inside => left x (List.mem_cons_of_mem _ inside))
        fun x inside => right x (List.mem_cons_of_mem _ inside)
    have run : mulPowers (p :: ps) (q :: qs) =
        .ok (if p.degree + q.degree = 0 then rest else ⟨p.id, p.degree + q.degree⟩ :: rest) := by
      rw [mulPowers, if_neg notLess, if_neg notGreater,
        gatedAdd_eq_ok (v.whole first) (v.whole second) (by decide), Result.ok_bind, later]
      rfl
    have sum := v.value_add first second same
    simp only [product, List.map_cons, List.prod_cons] at value ⊢
    -- A degree of zero is left out, whose value is one.
    refine ⟨_, run, ?_, ?_⟩
    · split
      · exact admitted
      · exact List.forall_mem_cons.mpr ⟨v.admits_add first second same, admitted⟩
    · split
      · rename_i zero
        rw [v.value_zero (p := ⟨p.id, p.degree + q.degree⟩) zero] at sum
        rw [value, mul_mul_mul_comm, ← sum, one_mul]
      · rw [List.map_cons, List.prod_cons, sum, value, mul_mul_mul_comm]

end PowerValue

end Clifford
