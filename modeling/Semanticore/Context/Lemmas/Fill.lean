import Semanticore.Context.Lemmas.Cascade
import Semanticore.Context.Lemmas.Tidy

/-!
# Filling a tier in rounds

Each round adds a batch to one scope and enforces the bounds from there on. Ranks and arrivals are fixed before the
first round, so the rounds are cascades of the same kind, and several of them are one.
-/

namespace Semanticore.Context
open Semanticore.Core Semanticore.Lib

variable {P : Platform} {cfg : Settings} {σ τ ρ : Session} {st : State} {scope s : ContextScope} {id : ItemId}
  {items items' : List ContextItem} {t t' now : Instant}

/-! ## Ranks and births -/

/-- The key of an item that was added at `t` and not accessed since. -/
def freshKey (cfg : Settings) (t : Instant) : Nat :=
  match cfg.evictionPolicy with
  | .lru => t
  | .lfu => 0
  | .recencyWeighted _ => 0

/-- Items in the order of their keys in `st`; the ones it does not have count as added at `t`. -/
def rankOf (cfg : Settings) (st : State) (t : Instant) (id : ItemId) : Nat ×ₗ ItemId :=
  match st.items[id]? with
  | some e => toLex (e.key cfg, id)
  | none => toLex (freshKey cfg t, id)

/-- Where an item is in `st` and how it got there; the ones it does not have are added to `scope`. -/
def birthOf (st : State) (scope : ContextScope) (id : ItemId) : ContextScope × Arrival :=
  match st.items[id]? with
  | some e => (e.scope, e.arrival)
  | none => (scope, .added)

/-- What additions to `scope` make of `st`. -/
structure Grows (scope : ContextScope) (st st' : State) : Prop where
  next : st.nextId.toNat ≤ st'.nextId.toNat
  origin : ∀ (id : ItemId) (e' : Entry), st'.items[id]? = some e' → (∃ e : Entry, st.items[id]? = some e ∧ e.Sinks e') ∨
    st.nextId.toNat ≤ id.n.toNat ∧ ∃ item now, (Entry.new item scope .added now).Sinks e'
  order : ∀ (a b : ItemId) (ea eb : Entry), st'.items[a]? = some ea → st'.items[b]? = some eb → a < b →
    st.nextId.toNat ≤ b.n.toNat → ea.lastTouch ≤ eb.lastTouch

theorem Tidy.not_live (h : Tidy t st) (hid : st.nextId.toNat ≤ id.n.toNat) : st.items[id]? = none := by
  cases he : st.items[id]? with
  | none => rfl
  | some e => exact absurd (h.fresh id e he) (not_lt.mpr hid)

theorem Grows.refl (h : Tidy t st) : Grows scope st st := by
  refine ⟨le_rfl, fun id e he => Or.inl ⟨e, he, Or.inl rfl⟩, fun a b ea eb _ hb _ hnew => ?_⟩
  cases (h.not_live hnew).symm.trans hb

theorem Grows.descends (h : Grows scope st σ.state) (hdesc : Descends σ τ) (hnext : τ.state.nextId = σ.state.nextId) :
    Grows scope st τ.state := by
  refine ⟨hnext ▸ h.next, fun id e'' he'' => ?_, fun a b ea' eb' ha' hb' hlt hnew => ?_⟩
  · obtain ⟨e', he', hsinks⟩ := hdesc id e'' he''
    rcases h.origin id e' he' with ⟨e, he, hold⟩ | ⟨hid, item, now, hnew⟩
    · exact Or.inl ⟨e, he, hold.trans hsinks⟩
    · exact Or.inr ⟨hid, item, now, hnew.trans hsinks⟩
  · obtain ⟨ea, ha, hsa⟩ := hdesc a ea' ha'
    obtain ⟨eb, hb, hsb⟩ := hdesc b eb' hb'
    rw [hsa.lastTouch, hsb.lastTouch]
    exact h.order a b ea eb ha hb hlt hnew

theorem Grows.added (h : Grows scope st ρ.state) (htidy : Tidy t ρ.state) (hle : t ≤ now)
    (hroom : ρ.state.nextId.toNat + items.length < 2 ^ 64) : Grows scope st (ρ.added P scope items now).state := by
  have htidy' : Tidy now (ρ.added P scope items now).state := htidy.added hle hroom
  refine ⟨?_, fun id e' he' => ?_, fun a b ea eb ha hb hlt hnew => ?_⟩
  · rw [Session.nextId_added hroom]
    exact h.next.trans (Nat.le_add_right ..)
  · by_cases hid : id ∈ (ρ.batch items).map Prod.fst
    · obtain ⟨⟨id', item⟩, hp, rfl⟩ := List.mem_map.mp hid
      rw [Session.items_added_of_mem hroom hp] at he'
      cases he'
      exact Or.inr ⟨h.next.trans (Session.mem_batch_ids hroom hp).1, item, now, Or.inl rfl⟩
    · rw [Session.items_added_of_not_mem hroom hid] at he'
      exact h.origin id e' he'
  · by_cases hid : b ∈ (ρ.batch items).map Prod.fst
    · obtain ⟨⟨b', item⟩, hp, rfl⟩ := List.mem_map.mp hid
      rw [Session.items_added_of_mem hroom hp] at hb
      cases hb
      exact htidy'.past a ea ha
    · -- `b` was there before, so `a` was.
      rw [Session.items_added_of_not_mem hroom hid] at hb
      have hid' : a ∉ (ρ.batch items).map Prod.fst := fun hmem => by
        obtain ⟨⟨a', item⟩, hp, rfl⟩ := List.mem_map.mp hmem
        have hge := (Session.mem_batch_ids hroom hp).1
        have hfresh := htidy.fresh b eb hb
        have hlt' : a'.n.toNat < b.n.toNat := ItemId.lt_iff_toNat.mp hlt
        omega
      rw [Session.items_added_of_not_mem hroom hid'] at ha
      exact h.order a b ea eb ha hb hlt hnew

theorem Grows.born (h : Grows scope st ρ.state) (htidy : Tidy t st) : Born (birthOf st scope) ρ := by
  intro id e' he'
  unfold birthOf
  rcases h.origin id e' he' with ⟨e, he, rfl | ⟨c, hc, rfl⟩⟩ | ⟨hid, item, now, rfl | ⟨c, hc, rfl⟩⟩
  · rw [he]
    exact Or.inl rfl
  · rw [he]
    exact Or.inr ⟨hc, rfl⟩
  · rw [htidy.not_live hid]
    exact Or.inl rfl
  · rw [htidy.not_live hid]
    exact Or.inr ⟨hc, rfl⟩

theorem Entry.key_of_lru (hpolicy : cfg.evictionPolicy = .lru) (e : Entry) : e.key cfg = e.lastTouch := by
  unfold Entry.key
  rw [hpolicy]

/-- Under other policies than LRU, new items have the key that they had when they were added. -/
theorem Grows.rank (h : Grows scope st ρ.state) (htidy : Tidy t st) (hpolicy : cfg.evictionPolicy ≠ .lru) {e' : Entry}
    (he' : ρ.state.items[id]? = some e') : rankOf cfg st t id = toLex (e'.key cfg, id) := by
  unfold rankOf
  rcases h.origin id e' he' with ⟨e, he, hsinks⟩ | ⟨hid, item, now, hsinks⟩
  · rw [he, hsinks.key]
  · rw [htidy.not_live hid, hsinks.key]
    unfold freshKey Entry.key
    cases hcase : cfg.evictionPolicy with
    | lru => exact (hpolicy hcase).elim
    | lfu => rfl
    | recencyWeighted halfLife => rfl

/-- Under LRU the items that were there rank by their last touch, and the new ones above them. -/
theorem Grows.rank_lru (h : Grows scope st ρ.state) (htidy : Tidy t st) (hpolicy : cfg.evictionPolicy = .lru) {e' : Entry}
    (he' : ρ.state.items[id]? = some e') :
    rankOf cfg st t id = toLex (e'.lastTouch, id) ∧ e'.lastTouch ≤ t ∧ id.n.toNat < st.nextId.toNat ∨
      rankOf cfg st t id = toLex (t, id) ∧ st.nextId.toNat ≤ id.n.toNat := by
  unfold rankOf
  rcases h.origin id e' he' with ⟨e, he, hsinks⟩ | ⟨hid, item, now, hsinks⟩
  · rw [he, hsinks.lastTouch, ← Entry.key_of_lru hpolicy e]
    exact Or.inl ⟨rfl, Entry.key_of_lru hpolicy e ▸ htidy.past id e he, htidy.fresh id e he⟩
  · rw [htidy.not_live hid]
    unfold freshKey
    rw [hpolicy]
    exact Or.inr ⟨rfl, hid⟩

theorem Grows.ranked (h : Grows scope st ρ.state) (htidy : Tidy t st) : Ranked cfg (rankOf cfg st t) ρ := by
  intro a b ea eb ha hb hlt
  by_cases hpolicy : cfg.evictionPolicy = .lru
  · rw [Entry.key_of_lru hpolicy, Entry.key_of_lru hpolicy] at hlt
    have hcompare : ∀ {x : Nat}, x ≤ t → a < b → toLex (x, a) < toLex (t, b) := fun hx hab =>
      Prod.Lex.toLex_lt_toLex.mpr (hx.lt_or_eq.imp_right fun heq => ⟨heq, hab⟩)
    rcases h.rank_lru htidy hpolicy ha with ⟨hra, hta, holda⟩ | ⟨hra, hnewa⟩
    · rcases h.rank_lru htidy hpolicy hb with ⟨hrb, -, -⟩ | ⟨hrb, hnewb⟩
      · rw [hra, hrb]
        exact hlt
      · rw [hra, hrb]
        exact hcompare hta (ItemId.lt_iff_toNat.mpr (holda.trans_le hnewb))
    · -- What ranks above a new item is newer.
      have hab : a < b := by
        rcases lt_trichotomy a b with hab | rfl | hba
        · exact hab
        · cases ha.symm.trans hb
          exact (lt_irrefl _ hlt).elim
        · have hle := h.order b a eb ea hb ha hba hnewa
          rcases Prod.Lex.toLex_lt_toLex.mp hlt with hlt | ⟨-, hab⟩
          · exact absurd hlt (not_lt.mpr hle)
          · exact hab
      have hnewb : st.nextId.toNat ≤ b.n.toNat := hnewa.trans (ItemId.lt_iff_toNat.mp hab).le
      rcases h.rank_lru htidy hpolicy hb with ⟨-, -, holdb⟩ | ⟨hrb, -⟩
      · exact absurd holdb (not_lt.mpr hnewb)
      · rw [hra, hrb]
        exact hcompare le_rfl hab
  · rw [h.rank htidy hpolicy ha, h.rank htidy hpolicy hb]
    exact hlt

/-! ## One round -/

/-- The ids that a batch gets. -/
def Session.newIds (σ : Session) (items : List ContextItem) : Finset ItemId := ((σ.batch items).map Prod.fst).toFinset

/-- A batch was written and the bounds of its scope and of the colder ones were enforced, from `t` to `t'`. -/
structure Fills (P : Platform) (cfg : Settings) (scope : ContextScope) (items : List ContextItem) (t t' : Instant)
    (σ τ : Session) : Prop where
  room : σ.state.nextId.toNat + items.length < 2 ^ 64
  filled : ∃ now, t ≤ now ∧ now ≤ t' ∧ Sweep P cfg scope.andColder (σ.added P scope items now) τ ∧
    Trail P cfg (σ.added P scope items now) τ

theorem mem_newIds (hroom : σ.state.nextId.toNat + items.length < 2 ^ 64) (hid : id ∈ σ.newIds items) :
    σ.state.nextId.toNat ≤ id.n.toNat ∧ id.n.toNat < σ.state.nextId.toNat + items.length := by
  obtain ⟨⟨id', item⟩, hp, rfl⟩ := List.mem_map.mp (List.mem_toFinset.mp hid)
  exact Session.mem_batch_ids hroom hp

theorem Tidy.of_mem_pool (h : Tidy t st) (hid : id ∈ st.pool s) : id.n.toNat < st.nextId.toNat := by
  obtain ⟨e, he, -⟩ := State.scopeOf_eq_some.mp (State.mem_pool.mp hid)
  exact h.fresh id e he

theorem pool_added (htidy : Tidy t σ.state) (hroom : σ.state.nextId.toNat + items.length < 2 ^ 64) :
    (σ.added P scope items now).state.pool s =
      if s = scope then σ.state.pool s ∪ σ.newIds items else σ.state.pool s := by
  ext id
  rw [apply_ite (id ∈ ·), Finset.mem_union, State.mem_pool, State.mem_pool]
  by_cases hid : id ∈ (σ.batch items).map Prod.fst
  · have hnew : id ∈ σ.newIds items := List.mem_toFinset.mpr hid
    have hnone : σ.state.scopeOf id = none := by
      unfold State.scopeOf
      rw [htidy.not_live (mem_newIds hroom hnew).1]
      rfl
    obtain ⟨⟨id', item⟩, hp, rfl⟩ := List.mem_map.mp hid
    rw [State.scopeOf_eq_place, Session.place_added_of_mem hroom hp, hnone]
    by_cases hs : s = scope
    · simp [hs, hnew]
    · simp [hs, Ne.symm hs]
  · have hnew : id ∉ σ.newIds items := fun h => hid (List.mem_toFinset.mp h)
    rw [State.scopeOf_eq_place, Session.place_added_of_not_mem hroom hid, ← State.scopeOf_eq_place]
    simp [hnew]

theorem Fills.next (h : Fills P cfg scope items t t' σ τ) :
    τ.state.nextId = σ.state.nextId + UInt64.ofNat items.length := by
  obtain ⟨-, now, -, -, -, htrail⟩ := h
  exact nextId_ends htrail.ends

/-- The cascade of a round that leaves `τ`, ranked as of `st` and `t`. -/
def Round (P : Platform) (cfg : Settings) (scope : ContextScope) (st : State) (t : Instant) (T : ContextScope → Finset ItemId)
    (I : Finset ItemId) (v : View) (τ : Session) (R : Multiset ItemId) : Prop :=
  Cascade (rankOf cfg st t) cfg.bounds.get (Falls cfg (birthOf st scope)) T τ.state.pool scope.andColder I R ∧
    τ.view = R.foldl (View.evict P cfg) v

theorem Fills.round {t₀ : Instant} (hpolicy : ByKey cfg) (h : Fills P cfg scope items t t' ρ τ) (hst : Tidy t₀ st)
    (hgrows : Grows scope st ρ.state) (htidy : Tidy t ρ.state) :
    (∃ R, Round P cfg scope st t₀ ρ.state.pool (ρ.newIds items) (ρ.view.add P scope (ρ.batch items)) τ R) ∧
      Grows scope st τ.state := by
  obtain ⟨hroom, now, hle, -, hsweep, htrail⟩ := h
  have hadded : Grows scope st (ρ.added P scope items now).state := hgrows.added htidy hle hroom
  have hranked : Ranked cfg (rankOf cfg st t₀) (ρ.added P scope items now) := hadded.ranked hst
  obtain ⟨R, hcascade, hview, hdesc, -⟩ := hsweep.cascade hpolicy hranked (hadded.born hst)
    ((pool_added htidy hroom).trans (if_pos rfl)) fun c hc => (pool_added htidy hroom).trans (if_neg hc.ne)
  rw [Session.view_added hroom] at hview
  exact ⟨⟨R, hcascade, hview⟩, hadded.descends hdesc (nextId_ends htrail.ends)⟩

/-! ## Several rounds -/

theorem idRange_append (first : UInt64) (m n : Nat) :
    idRange first (m + n) = idRange first m ++ idRange (first + UInt64.ofNat m) n := by
  simp only [idRange, List.range_add, List.map_append, List.map_map, UInt64.ofNat_add, UInt64.add_assoc,
    Function.comp_def]

/-- The ids of one batch after the other. -/
theorem Session.batch_append (hnext : ρ.state.nextId = σ.state.nextId + UInt64.ofNat items.length) :
    σ.batch (items ++ items') = σ.batch items ++ ρ.batch items' := by
  unfold Session.batch
  rw [List.length_append, idRange_append, List.zip_append (idRange_length ..), hnext]

theorem toNat_next (hroom : σ.state.nextId.toNat + items.length < 2 ^ 64)
    (hnext : ρ.state.nextId = σ.state.nextId + UInt64.ofNat items.length) :
    ρ.state.nextId.toNat = σ.state.nextId.toNat + items.length := by
  rw [hnext, UInt64.toNat_add, UInt64.toNat_ofNat']
  omega

/-- Items were added to `scope`, in one round or several; `t` is when the first one began. -/
structure Filled (P : Platform) (cfg : Settings) (scope : ContextScope) (items : List ContextItem) (t : Instant)
    (σ τ : Session) : Prop where
  room : σ.state.nextId.toNat + items.length < 2 ^ 64
  round : ∃ R, Round P cfg scope σ.state t σ.state.pool (σ.newIds items) (σ.view.add P scope (σ.batch items)) τ R
  grows : Grows scope σ.state τ.state
  next : τ.state.nextId = σ.state.nextId + UInt64.ofNat items.length

theorem Fills.first (hpolicy : ByKey cfg) (h : Fills P cfg scope items t t' σ τ) (htidy : Tidy t σ.state) :
    Filled P cfg scope items t σ τ := by
  obtain ⟨hround, hgrows⟩ := h.round hpolicy htidy (Grows.refl htidy) htidy
  exact ⟨h.room, hround, hgrows, h.next⟩

/-- However the rounds were cut, they leave the same. -/
theorem Filled.view_eq (h : Filled P cfg scope items t σ ρ) (h' : Filled P cfg scope items t σ τ) : ρ.view = τ.view := by
  obtain ⟨R, hcascade, hview⟩ := h.round
  obtain ⟨R', hcascade', hview'⟩ := h'.round
  rw [hview, hview', hcascade.unique hcascade']

theorem disjoint_pool (st : State) {a b : ContextScope} (hne : a ≠ b) : Disjoint (st.pool a) (st.pool b) := by
  refine Finset.disjoint_left.mpr fun id ha hb => hne ?_
  exact Option.some.inj ((State.mem_pool.mp ha).symm.trans (State.mem_pool.mp hb))

/-- New ids are in no pool. -/
theorem Tidy.disjoint_newIds {st : State} (h : Tidy t st) (hle : st.nextId.toNat ≤ σ.state.nextId.toNat)
    (hroom : σ.state.nextId.toNat + items.length < 2 ^ 64) : Disjoint (σ.newIds items) (st.pool s) := by
  refine Finset.disjoint_left.mpr fun id hid hpool => ?_
  exact absurd (h.of_mem_pool hpool) (not_lt.mpr (hle.trans (mem_newIds hroom hid).1))

theorem Filled.again {t₁ : Instant} (hpolicy : ByKey cfg) (h : Filled P cfg scope items t σ ρ)
    (h' : Fills P cfg scope items' t₁ t' ρ τ) (hσ : Tidy t σ.state) (hρ : Tidy t₁ ρ.state) :
    Filled P cfg scope (items ++ items') t σ τ := by
  have hnat := toNat_next h.room h.next
  have hroom : σ.state.nextId.toNat + (items ++ items').length < 2 ^ 64 := by
    have := h'.room
    rw [List.length_append]
    omega
  have hbatch : σ.batch (items ++ items') = σ.batch items ++ ρ.batch items' := Session.batch_append h.next
  obtain ⟨R, hcascade, hview⟩ := h.round
  obtain ⟨⟨R', hcascade', hview'⟩, hgrows⟩ := h'.round hpolicy hσ h.grows hρ
  have hids : σ.newIds (items ++ items') = σ.newIds items ∪ ρ.newIds items' := by
    unfold Session.newIds
    rw [hbatch, List.map_append, List.toFinset_append]
  have hapart : Disjoint (σ.newIds items) (ρ.newIds items') := by
    refine Finset.disjoint_left.mpr fun id hid hid' => ?_
    have hlt := (mem_newIds h.room hid).2
    have hge := (mem_newIds h'.room hid').1
    omega
  -- What the first rounds evicted is not in the last batch.
  have hold : ∀ id ∈ R, id ∉ (ρ.batch items').map Prod.fst := by
    intro id hid hmem
    have hge := (mem_newIds h'.room (List.mem_toFinset.mpr hmem)).1
    rcases hcascade.mem hid with hid | ⟨k, -, hid⟩
    · have hlt := (mem_newIds h.room hid).2
      omega
    · have hlt := hσ.of_mem_pool hid
      omega
  refine ⟨hroom, ⟨R + R', ?_, ?_⟩, hgrows, ?_⟩
  · rw [hids]
    refine hcascade.absorb hcascade' ?_ (fun k _ => hσ.disjoint_newIds le_rfl h.room)
      (fun k _ => hσ.disjoint_newIds (by omega) h'.room) hapart
    exact (ContextScope.andColder_nodup scope).imp fun hne => disjoint_pool σ.state hne
  · have hnew : ∀ id ∈ (σ.batch items).map Prod.fst, id ∉ (ρ.batch items').map Prod.fst := fun id hid hid' =>
      Finset.disjoint_left.mp hapart (List.mem_toFinset.mpr hid) (List.mem_toFinset.mpr hid')
    rw [hview', hview, View.add_foldl_evict R hold, View.add_append hnew, ← hbatch, Multiset.foldl_add]
  · rw [h'.next, h.next, List.length_append, UInt64.ofNat_add, UInt64.add_assoc]

end Semanticore.Context
