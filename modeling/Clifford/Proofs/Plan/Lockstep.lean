import Clifford.Proofs.Plan.Acceptance

/-! Programs in lockstep: two programs for the same trees, which share different stems but the same ones
inside what is looked at before it is used, run alike unless one of them overflows. -/

namespace Clifford

open Result (Concur)

namespace Machine

variable {A : Algebra} {symbols : List Multivector} {rel : Nat → Nat → Prop} {m m' r r' : Machine}

/-- The stems of some trees, of which two programs share some each: those that stand alone, and the
same ones among those that are near, as everything is inside what is looked at before it is used. -/
structure Sharings (A : Algebra) (symbols : List Multivector) (all : List Code)
    (p q : Code → Bool) (near : Code → Prop) : Prop where
  nodup : all.Nodup
  ordered : Sharing.Postordered all
  stem : ∀ c ∈ all, c.stem = c
  wellFormed : ∀ c ∈ all, c.WellFormed
  inSpace : ∀ c ∈ all, c.Every fun d => d.head.InSpace A.dim symbols.length
  alone : ∀ c ∈ all, c.head.standsAlone = true → p c = true ∧ q c = true
  inspected : ∀ c ∈ all, ∀ s ∈ c.inspected, near s
  below : ∀ c, near c → ∀ s ∈ Code.candidatesOf c.head 0 c.operands, near s
  agree : ∀ c ∈ all, near c → p c = q c

/-- A machine has computed the shared ones of some stems. -/
structure Reaches (A : Algebra) (base : Nat) (shared : List Code) (p : Code → Bool) (done : List Code)
    (m : Machine) : Prop where
  stack : m.stack = []
  count : m.temporaries.length = (done.filter p).length
  held : ∀ s ∈ done, HeldAlike A.dim Eq shared m.temporaries shared m.temporaries s
  room : m.nextId ≤ base + 2 * A.dim * done.length

/-- Two machines have computed the shared ones of some stems, with values that correspond for those that
are near. -/
structure Agree (A : Algebra) (symbols : List Multivector) (shared shared' : List Code)
    (near : Code → Prop) (done : List Code) (rel : Nat → Nat → Prop) (m m' : Machine) : Prop where
  relabels : Relabels A symbols rel
  used : ∀ i j, rel i j → (i < m.nextId ∧ j < m'.nextId) ∨ (i = j ∧ constantBase ≤ i)
  held : ∀ s ∈ done, near s → HeldAlike A.dim rel shared m.temporaries shared' m'.temporaries s

/-- Values that are held stay so while ids and temporaries are added. -/
theorem HeldAlike.mono {dim : Nat} {rel' : Nat → Nat → Prop} {shared shared' : List Code}
    {ts ts' us us' : List Multivector} {s : Code} (alike : HeldAlike dim rel shared ts shared' ts' s)
    (more : ∀ i j, rel i j → rel' i j) (left : ts <+: us) (right : ts' <+: us') :
    HeldAlike dim rel' shared us shared' us' s := by
  -- What a temporary holds does not change while others are added behind it.
  have kept {shared : List Code} {ts us : List Multivector} {a : Multivector} (longer : ts <+: us)
      (found : held shared ts s = some a) : held shared us s = some a := by
    obtain ⟨i, index, temporary⟩ := Option.bind_eq_some_iff.mp found
    obtain ⟨rest, rfl⟩ := longer
    obtain ⟨inside, rfl⟩ := List.getElem?_eq_some_iff.mp temporary
    exact Option.bind_eq_some_iff.mpr ⟨i, index, by rw [List.getElem?_append_left inside, temporary]⟩
  cases alike with
  | inPlace outside outside' together => exact .inPlace outside outside' together
  | loaded first second renamed =>
    exact .loaded (kept left first) (kept right second) (renamed.mono more)

/-- A stem is held by the temporary that is computed behind those of the stems before it. -/
theorem held_new {all before after : List Code} {p : Code → Bool} {c : Code} (nodup : all.Nodup)
    (split : all = before ++ c :: after) (shares : p c = true) {ts : List Multivector}
    (count : ts.length = (before.filter p).length) (a : Multivector) :
    held (all.filter p) (ts ++ [a]) c = some a := by
  -- The shared stems before this one take the temporaries before it.
  have shared : all.filter p = before.filter p ++ c :: after.filter p := by
    rw [split, List.filter_append, List.filter_cons, if_pos shares]
  have absent : c ∉ before.filter p := by
    intro inside
    rw [split] at nodup
    exact (List.nodup_append.mp nodup).2.2 c (List.mem_of_mem_filter inside) c (by simp) rfl
  have index : (all.filter p).idxOf? c = some (before.filter p).length := by
    rw [shared, List.idxOf?_eq_some_iff]
    refine ⟨by simp, by simp, fun j before same => absent ?_⟩
    rw [List.getElem_append_left before] at same
    exact same ▸ List.getElem_mem before
  rw [held, index, Option.bind_some, ← count, List.getElem?_concat_length]

/-- Reaching one more stem that is not shared takes no instruction. -/
theorem Reaches.skip {base : Nat} {shared done : List Code} {p : Code → Bool} {c : Code}
    (reaches : Reaches A base shared p done m) (outside : p c = false)
    (unshared : c ∉ shared) (together : c.head.standsAlone = false) :
    Reaches A base shared p (done ++ [c]) m where
  stack := reaches.stack
  count := by rw [reaches.count, List.filter_append]; simp [outside]
  held s inside := by
    rcases List.mem_append.mp inside with before | last
    · exact reaches.held s before
    · obtain rfl := List.mem_singleton.mp last
      exact .inPlace unshared unshared together
  room := reaches.room.trans (Nat.add_le_add_left (Nat.mul_le_mul_left _ (by simp)) _)

/-- Fresh indeterminates are held alike by one machine. -/
theorem Stores.renamed {id : Nat} {blades : List Nat} (stores : m.Stores A.dim r id blades) :
    (Multivector.fresh id blades).Renamed A.dim Eq (.fresh id blades) :=
  Multivector.fresh_renamed stores.ordered stores.bounded fun _ _ => rfl

/-- Storing a stem reaches it. -/
theorem Reaches.store {base id : Nat} {all done after : List Code} {p : Code → Bool} {c : Code}
    {blades : List Nat} (nodup : all.Nodup) (split : all = done ++ c :: after) (shares : p c = true)
    (reaches : Reaches A base (all.filter p) p done m) (stores : m.Stores A.dim r id blades) :
    Reaches A base (all.filter p) p (done ++ [c]) r where
  stack := stores.stack.trans reaches.stack
  count := by
    rw [stores.temporaries, List.length_append, reaches.count, List.filter_append]
    simp [shares]
  held s inside := by
    rw [stores.temporaries]
    rcases List.mem_append.mp inside with before | last
    · exact (reaches.held s before).mono (fun _ _ same => same) (List.prefix_append _ _)
        (List.prefix_append _ _)
    · obtain rfl := List.mem_singleton.mp last
      have new := held_new nodup split shares reaches.count (.fresh id blades)
      exact .loaded new new stores.renamed
  room := by
    have last := stores.last
    have room := reaches.room
    -- Storing uses up to as many ids as there are blades, twice.
    rw [List.length_append, List.length_singleton, Nat.mul_add, Nat.mul_one]
    omega

/-- A renaming with consecutive ids from two ids on. -/
def extended (rel : Nat → Nat → Prop) (id id' count : Nat) (i j : Nat) : Prop :=
  rel i j ∨ ∃ k < count, i = id + k ∧ j = id' + k

section Agreement

variable {shared shared' done : List Code} {near : Code → Prop} {c : Code}

/-- Machines agree on one more stem, if what they hold for it corresponds. -/
theorem Agree.extend (agree : Agree A symbols shared shared' near done rel m m')
    (left : m.temporaries <+: r.temporaries) (right : m'.temporaries <+: r'.temporaries)
    (later : m.nextId ≤ r.nextId) (later' : m'.nextId ≤ r'.nextId)
    (new : near c → HeldAlike A.dim rel shared r.temporaries shared' r'.temporaries c) :
    Agree A symbols shared shared' near (done ++ [c]) rel r r' where
  relabels := agree.relabels
  used i j related := (agree.used i j related).imp_left fun old =>
    ⟨old.1.trans_le later, old.2.trans_le later'⟩
  held s inside given := by
    rcases List.mem_append.mp inside with before | last
    · exact (agree.held s before given).mono (fun _ _ related => related) left right
    · obtain rfl := List.mem_singleton.mp last
      exact new given

/-- The ids of two temporaries on the same blades correspond, too. -/
theorem Agree.relabel (agree : Agree A symbols shared shared' near done rel m m') {id id' count : Nat}
    (first : m.nextId ≤ id) (first' : m'.nextId ≤ id') (next : r.nextId = id + count)
    (next' : r'.nextId = id' + count) (room : r.nextId ≤ constantBase)
    (room' : r'.nextId ≤ constantBase) (left : m.temporaries <+: r.temporaries)
    (right : m'.temporaries <+: r'.temporaries) :
    Agree A symbols shared shared' near done (extended rel id id' count) r r' where
  relabels := by
    have relabels := agree.relabels
    refine ⟨?_, .inl relabels.pi, .inl relabels.e,
      fun a inside => (relabels.leaf a inside).mono fun _ _ related => .inl related⟩
    -- New ids are above all used ones, and below those of constants.
    rintro i j k l (old | ⟨x, small, rfl, rfl⟩) (old' | ⟨y, small', rfl, rfl⟩)
    · exact relabels.keeps old old'
    · rcases agree.used i j old with below | ⟨rfl, constant⟩ <;> omega
    · rcases agree.used k l old' with below | ⟨rfl, constant⟩ <;> omega
    · omega
  used i j related := by
    rcases related with old | ⟨x, small, rfl, rfl⟩
    · exact (agree.used i j old).imp_left fun before => by omega
    · exact .inl (by omega)
  held s inside given := (agree.held s inside given).mono (fun _ _ related => .inl related) left right

end Agreement

section Steps

variable {all done after : List Code} {p q : Code → Bool} {near : Code → Prop} {base : Nat} {c : Code}

/-- An operand of a stem is pushed alike, if what can be shared in it is held alike. -/
theorem Sharings.pushAlike_operand (sharings : Sharings A symbols all p q near)
    (relabels : Relabels A symbols rel) (inside : c ∈ all) {code : Code} (member : code ∈ c.operands)
    {shared shared' : List Code} {ts ts' : List Multivector} (divisor : Bool)
    (held : ∀ s ∈ Code.candidates divisor code, HeldAlike A.dim rel shared ts shared' ts' s) :
    PushAlike A symbols rel ts ts' 1 (Code.emit shared divisor code)
      (Code.emit shared' divisor code) := by
  -- An operand of a stem is well-formed and in the space with the stem.
  have wellFormed := sharings.wellFormed c inside
  obtain ⟨-, below⟩ := sharings.inSpace c inside
  exact pushAlike_emit relabels code divisor (wellFormed.parts code member) (below code member) held

/-- A stem that does not stand alone is pushed alike, if what can be shared below it is held alike. -/
theorem Sharings.pushAlike (sharings : Sharings A symbols all p q near)
    (relabels : Relabels A symbols rel) (inside : c ∈ all) (together : c.head.standsAlone = false)
    {shared shared' : List Code} {ts ts' : List Multivector}
    (held : ∀ s ∈ Code.candidatesOf c.head 0 c.operands,
      HeldAlike A.dim rel shared ts shared' ts' s) :
    PushAlike A symbols rel ts ts' 1 (Code.emitWhole shared c) (Code.emitWhole shared' c) := by
  have inSpace : c.head.InSpace A.dim symbols.length := (sharings.inSpace c inside).stem
  exact pushAlike_emitWhole relabels (sharings.wellFormed c inside) inSpace together
    (pushAlike_operands _ _ (fun _ member divisor =>
      sharings.pushAlike_operand relabels inside member divisor) 0 held)

/-- A stem that both programs share is computed by one machine where the other one has computed it. -/
theorem Sharings.storesLike (sharings : Sharings A symbols all p q near)
    (equal : Relabels A symbols Eq) (split : all = done ++ c :: after)
    (left : Reaches A base (all.filter p) p done m) (right : Reaches A base (all.filter q) q done m')
    (agree : Agree A symbols (all.filter p) (all.filter q) near done rel m m')
    (made : m'.run A symbols (Code.emitTemporary (all.filter q) c) = .ok r') :
    StoresLike A symbols (near c) m m' r' (Code.emitTemporary (all.filter p) c) := by
  -- The operand of a function and the divisor of a quotient are near, and so the values of both
  -- machines correspond there.
  have inside : c ∈ all := split ▸ List.mem_append_right _ List.mem_cons_self
  have known := sharings.ordered done c after split
  -- A node that does not stand alone is computed as a whole by both machines.
  have whole (together : c.head.standsAlone = false) :=
    storesLike_together
      (sharings.pushAlike equal inside together fun s below => left.held s (known s below))
      (sharings.pushAlike equal inside together fun s below => right.held s (known s below))
      (fun given => sharings.pushAlike agree.relabels inside together fun s below =>
        agree.held s (known s below) (sharings.below c given s below)) made
  have count := (sharings.wellFormed c inside).count
  have own := sharings.stem c inside
  have inspected := sharings.inspected c inside
  have below := sharings.below c
  obtain ⟨head, scale, operands⟩ := c
  obtain rfl : (1 : Rat) = scale := congrArg Code.scale own
  cases head with
  | unary op =>
    by_cases transcendental : op.isTranscendental = true
    · obtain ⟨arg, rfl⟩ := List.length_eq_one_iff.mp count
      have looked : (Code.node (.unary op) 1 [arg]).inspected =
          Code.candidates ((Head.unary op).dividesBy 0) arg := if_pos transcendental
      refine storesLike_function transcendental (sharings.pushAlike_operand agree.relabels inside
        (List.mem_singleton.mpr rfl) _ fun s given => ?_) made
      exact agree.held s (known s (List.mem_append_left _ given)) (inspected s (looked ▸ given))
    · exact whole (Bool.eq_false_iff.mpr transcendental)
  | binary op =>
    by_cases quotient : op = .divide
    · subst quotient
      obtain ⟨dividend, divisor, rfl⟩ := List.length_eq_two.mp count
      have first : ∀ s ∈ Code.candidates ((Head.binary .divide).dividesBy 0) dividend,
          s ∈ Code.candidatesOf (.binary .divide) 0 [dividend, divisor] :=
        fun s given => List.mem_append_left _ given
      have second : ∀ s ∈ Code.candidates ((Head.binary .divide).dividesBy 1) divisor,
          s ∈ Code.candidatesOf (.binary .divide) 0 [dividend, divisor] :=
        fun s given => List.mem_append_right _ (List.mem_append_left _ given)
      have dividend_member : dividend ∈ [dividend, divisor] := List.mem_cons_self
      have divisor_member : divisor ∈ [dividend, divisor] := List.mem_cons_of_mem _ List.mem_cons_self
      -- The dividend is compared for each machine with itself, the divisor across both.
      exact storesLike_quotient agree.relabels
        (sharings.pushAlike_operand equal inside dividend_member _ fun s given =>
          left.held s (known s (first s given)))
        (sharings.pushAlike_operand equal inside dividend_member _ fun s given =>
          right.held s (known s (first s given)))
        (fun close => sharings.pushAlike_operand agree.relabels inside dividend_member _
          fun s given => agree.held s (known s (first s given)) (below close s (first s given)))
        (sharings.pushAlike_operand agree.relabels inside divisor_member _ fun s given =>
          agree.held s (known s (second s given)) (inspected s given)) made
    · refine whole ?_
      cases op <;> first | rfl | exact absurd rfl quotient
  | _ => exact whole rfl

/-- What a program runs for a stem: its temporary, if it is shared. -/
def emitShared (all : List Code) (p : Code → Bool) (c : Code) : List Instruction :=
  if p c then Code.emitTemporary (all.filter p) c else []

/-- Two machines have computed the shared ones of some stems, and agree on those that are near. -/
structure Lockstep (A : Algebra) (symbols : List Multivector) (base : Nat) (all : List Code)
    (p q : Code → Bool) (near : Code → Prop) (done : List Code) (rel : Nat → Nat → Prop)
    (m m' : Machine) : Prop where
  left : Reaches A base (all.filter p) p done m
  right : Reaches A base (all.filter q) q done m'
  agree : Agree A symbols (all.filter p) (all.filter q) near done rel m m'

/-- A stem that is not shared is not among those that are. -/
theorem not_mem_filter (outside : p c = false) : c ∉ all.filter p :=
  fun inside => absurd (List.mem_filter.mp inside).2 (by simp [outside])

/-- A stem that is stored on the same blades, if it is near, keeps machines in lockstep. -/
theorem Lockstep.store (sharings : Sharings A symbols all p q near) (split : all = done ++ c :: after)
    (room : base + 2 * A.dim * all.length ≤ constantBase) (shares : p c = true) (shares' : q c = true)
    (lockstep : Lockstep A symbols base all p q near done rel m m') {id id' : Nat}
    {blades blades' : List Nat} (stores : m.Stores A.dim r id blades)
    (stores' : m'.Stores A.dim r' id' blades') (same : near c → blades = blades') :
    ∃ rel', Lockstep A symbols base all p q near (done ++ [c]) rel' r r' := by
  -- Both machines reach the stem, each with a fresh indeterminate on every blade.
  have left := lockstep.left.store sharings.nodup split shares stores
  have right := lockstep.right.store sharings.nodup split shares' stores'
  have inside : m.temporaries <+: r.temporaries := ⟨_, stores.temporaries.symm⟩
  have inside' : m'.temporaries <+: r'.temporaries := ⟨_, stores'.temporaries.symm⟩
  have next := stores.next
  have next' := stores'.next
  have first := stores.first
  have first' := stores'.first
  -- If the stem is near, the new ids are related; otherwise nothing is asked of them.
  by_cases close : near c
  · obtain rfl := same close
    have shorter : (done ++ [c]).length ≤ all.length := by simp [split]
    have wide : 2 * A.dim * (done ++ [c]).length ≤ 2 * A.dim * all.length :=
      Nat.mul_le_mul_left _ shorter
    have bound := left.room
    have bound' := right.room
    have agree := lockstep.agree.relabel first first' next next' (by omega) (by omega) inside inside'
    refine ⟨_, left, right, agree.extend List.prefix_rfl List.prefix_rfl le_rfl le_rfl fun _ => .loaded
      (a := .fresh id blades) (b := .fresh id' blades) ?_ ?_ ?_⟩
    · rw [stores.temporaries]
      exact held_new sharings.nodup split shares lockstep.left.count _
    · rw [stores'.temporaries]
      exact held_new sharings.nodup split shares' lockstep.right.count _
    · exact Multivector.fresh_renamed stores.ordered stores.bounded fun k small =>
        .inr ⟨k, small, rfl, rfl⟩
  · exact ⟨rel, left, right, lockstep.agree.extend inside inside' (by omega) (by omega)
      fun given => absurd given close⟩

/-- A stem that stands alone is shared by both programs, so that one that is not shared by both does not
stand alone. -/
theorem Sharings.together (sharings : Sharings A symbols all p q near) (inside : c ∈ all)
    (single : p c = false ∨ q c = false) : c.head.standsAlone = false := by
  by_contra alone
  have both := sharings.alone c inside (by simpa using alone)
  rcases single with none | none <;> simp [none] at both

/-- A stem that one program shares and the other one does not is not near. -/
theorem Sharings.far (sharings : Sharings A symbols all p q near) (inside : c ∈ all)
    (differ : p c ≠ q c) : ¬ near c :=
  fun close => differ (sharings.agree c inside close)

/-- A stem that the left program alone shares is computed by its machine, unless that overflows. -/
theorem Lockstep.storeLeft (sharings : Sharings A symbols all p q near) (equal : Relabels A symbols Eq)
    (split : all = done ++ c :: after) (shares : p c = true) (skips : q c = false)
    (lockstep : Lockstep A symbols base all p q near done rel m m') :
    m.run A symbols (Code.emitTemporary (all.filter p) c) = .error .quotientOverflow ∨
      ∃ r, m.run A symbols (Code.emitTemporary (all.filter p) c) = .ok r ∧
        Lockstep A symbols base all p q near (done ++ [c]) rel r m' := by
  have inside : c ∈ all := split ▸ List.mem_append_right _ List.mem_cons_self
  have known := sharings.ordered done c after split
  have together := sharings.together inside (.inr skips)
  have far := sharings.far inside (by simp [shares, skips])
  -- What can be shared below the stem has been computed, so that the stem is pushed, and then stored.
  refine (stores_of_pushAlike (sharings.pushAlike equal inside together
    fun s below => lockstep.left.held s (known s below))).imp_right ?_
  rintro ⟨r, id, blades, run, stores⟩
  have first := stores.first
  have next := stores.next
  exact ⟨r, run, lockstep.left.store sharings.nodup split shares stores,
    lockstep.right.skip skips (not_mem_filter skips) together,
    lockstep.agree.extend ⟨_, stores.temporaries.symm⟩ List.prefix_rfl (by omega) le_rfl
      fun close => absurd close far⟩

/-- A stem that the right program alone shares has been computed by its machine. -/
theorem Lockstep.storeRight (sharings : Sharings A symbols all p q near) (equal : Relabels A symbols Eq)
    (split : all = done ++ c :: after) (skips : p c = false) (shares : q c = true)
    (lockstep : Lockstep A symbols base all p q near done rel m m')
    (made : m'.run A symbols (Code.emitTemporary (all.filter q) c) = .ok r') :
    Lockstep A symbols base all p q near (done ++ [c]) rel m r' := by
  have inside : c ∈ all := split ▸ List.mem_append_right _ List.mem_cons_self
  have known := sharings.ordered done c after split
  have together := sharings.together inside (.inl skips)
  have far := sharings.far inside (by simp [shares, skips])
  rcases stores_of_pushAlike (sharings.pushAlike equal inside together
    fun s below => lockstep.right.held s (known s below)) with overflow | ⟨s, id, blades, run, stores⟩
  · -- The machine has not overflowed.
    cases overflow.symm.trans made
  · cases run.symm.trans made
    have first := stores.first
    have next := stores.next
    exact ⟨lockstep.left.skip skips (not_mem_filter skips) together,
      lockstep.right.store sharings.nodup split shares stores,
      lockstep.agree.extend List.prefix_rfl ⟨_, stores.temporaries.symm⟩ le_rfl (by omega)
        fun close => absurd close far⟩

/-- A stem that neither program shares is left to where it is used. -/
theorem Lockstep.skip (sharings : Sharings A symbols all p q near) (inside : c ∈ all)
    (skips : p c = false) (skips' : q c = false)
    (lockstep : Lockstep A symbols base all p q near done rel m m') :
    Lockstep A symbols base all p q near (done ++ [c]) rel m m' := by
  have together := sharings.together inside (.inl skips)
  have outside : c ∉ all.filter p := not_mem_filter skips
  have outside' : c ∉ all.filter q := not_mem_filter skips'
  exact ⟨lockstep.left.skip skips outside together, lockstep.right.skip skips' outside' together,
    lockstep.agree.extend List.prefix_rfl List.prefix_rfl le_rfl le_rfl fun _ =>
      .inPlace outside outside' together⟩

/-- Where one machine runs what its program has for a stem, so does the other one, unless it
overflows. -/
theorem Lockstep.step (sharings : Sharings A symbols all p q near) (equal : Relabels A symbols Eq)
    (split : all = done ++ c :: after) (room : base + 2 * A.dim * all.length ≤ constantBase)
    (lockstep : Lockstep A symbols base all p q near done rel m m')
    (made : m'.run A symbols (emitShared all q c) = .ok r') :
    m.run A symbols (emitShared all p c) = .error .quotientOverflow ∨
      ∃ r rel', m.run A symbols (emitShared all p c) = .ok r ∧
        Lockstep A symbols base all p q near (done ++ [c]) rel' r r' := by
  have inside : c ∈ all := split ▸ List.mem_append_right _ List.mem_cons_self
  -- Only what the program itself shares is emitted.
  rw [emitShared] at made ⊢
  -- The stem is shared by both programs, by one of them, or by none.
  cases shares : p c with
  | true =>
    rw [if_pos rfl]
    cases shares' : q c with
    | true =>
      rw [shares', if_pos rfl] at made
      refine (sharings.storesLike equal split lockstep.left lockstep.right lockstep.agree made).imp_right ?_
      rintro ⟨r, run, id, blades, id', blades', stores, stores', same⟩
      obtain ⟨rel', next⟩ := lockstep.store sharings split room shares shares' stores stores' same
      exact ⟨r, rel', run, next⟩
    | false =>
      rw [shares', if_neg Bool.false_ne_true] at made
      cases made
      refine (lockstep.storeLeft sharings equal split shares shares').imp_right ?_
      rintro ⟨r, run, next⟩
      exact ⟨r, rel, run, next⟩
  | false =>
    rw [if_neg Bool.false_ne_true]
    cases shares' : q c with
    | true =>
      rw [shares', if_pos rfl] at made
      exact .inr ⟨m, rel, rfl, lockstep.storeRight sharings equal split shares shares' made⟩
    | false =>
      rw [shares', if_neg Bool.false_ne_true] at made
      cases made
      exact .inr ⟨m, rel, rfl, lockstep.skip sharings inside shares shares'⟩

/-- What a program runs for its temporaries. -/
theorem emitTemporaries_eq (p : Code → Bool) (stems : List Code) :
    (stems.filter p).flatMap (Code.emitTemporary (all.filter p)) =
      stems.flatMap (emitShared all p) := by
  -- A stem that is not shared contributes nothing on either side.
  induction stems with
  | nil => rfl
  | cons c rest ih =>
    rw [List.flatMap_cons, ← ih, emitShared, List.filter_cons]
    split <;> rfl

/-- Where one machine runs all temporaries of its program, so does the other one, unless it
overflows. -/
theorem Lockstep.run (sharings : Sharings A symbols all p q near) (equal : Relabels A symbols Eq)
    (room : base + 2 * A.dim * all.length ≤ constantBase) : ∀ {after done rel m m'},
    all = done ++ after → Lockstep A symbols base all p q near done rel m m' →
      m'.run A symbols (after.flatMap (emitShared all q)) = .ok r' →
        m.run A symbols (after.flatMap (emitShared all p)) = .error .quotientOverflow ∨
          ∃ r rel', m.run A symbols (after.flatMap (emitShared all p)) = .ok r ∧
            Lockstep A symbols base all p q near all rel' r r' := by
  intro after
  -- The stems are reached in order, one step after the other.
  induction after with
  | nil =>
    intro done rel m m' split lockstep made
    cases made
    rw [List.append_nil] at split
    exact .inr ⟨m, rel, rfl, split ▸ lockstep⟩
  | cons c after ih =>
    intro done rel m m' split lockstep made
    rw [List.flatMap_cons, run_append] at made ⊢
    obtain ⟨s', first, later⟩ := Result.bind_eq_ok.mp made
    rcases lockstep.step sharings equal split room first with overflow | ⟨s, rel', run, next⟩
    · exact .inl (by rw [overflow, Result.error_bind])
    · rw [run, Result.ok_bind]
      exact ih (by rw [split, List.append_assoc, List.singleton_append]) next later

end Steps

end Machine

end Clifford
