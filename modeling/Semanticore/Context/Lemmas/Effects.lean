import Semanticore.Context.Effects

/-!
# Reading effects off

Trails, and what each effect does to the index and to the quads of the stores.
-/

namespace Semanticore.Context
open Semanticore.Core

variable {P : Platform} {cfg : Settings} {σ τ ρ : Session}

theorem Trail.refl : Trail P cfg σ σ := Relation.ReflTransGen.refl

theorem Trail.trans (h : Trail P cfg σ τ) (h' : Trail P cfg τ ρ) : Trail P cfg σ ρ :=
  Relation.ReflTransGen.trans h h'

theorem Act.trail (h : Act P cfg σ τ) : Trail P cfg σ τ := Relation.ReflTransGen.single h

theorem Trail.ends (h : Trail P cfg σ τ) : Ends P cfg σ τ := ⟨τ, h, Or.inl rfl⟩

theorem Ends.of_eq (h : τ = σ) : Ends P cfg σ τ := h ▸ Trail.refl.ends

theorem Trail.then_ends (h : Trail P cfg σ τ) (h' : Ends P cfg τ ρ) : Ends P cfg σ ρ := by
  obtain ⟨υ, htrail, hlast⟩ := h'
  exact ⟨υ, h.trans htrail, hlast⟩

theorem HalfMove.ends (h : HalfMove P σ τ) : Ends P cfg σ τ := ⟨σ, .refl, Or.inr h⟩

/-- A condition that every action keeps holds at the end of a trail. -/
theorem Trail.keeps {I : Session → Prop} (h : Trail P cfg σ τ)
    (hstep : ∀ {σ τ}, Act P cfg σ τ → I σ → I τ) (hI : I σ) : I τ := by
  induction h with
  | refl => exact hI
  | tail _ hact ih => exact hstep hact ih

theorem Ends.keeps {I : Session → Prop} (h : Ends P cfg σ τ)
    (hstep : ∀ {σ τ}, Act P cfg σ τ → I σ → I τ) (hhalf : ∀ {σ τ}, HalfMove P σ τ → I σ → I τ) (hI : I σ) :
    I τ := by
  obtain ⟨ρ, htrail, rfl | hlast⟩ := h
  · exact htrail.keeps hstep hI
  · exact hhalf hlast (htrail.keeps hstep hI)

/-! ## Reading effects off -/

namespace Session

variable {id id' : ItemId} {e : Entry} {item : ContextItem} {scope target s : ContextScope} {arrival : Arrival}
  {q : Quad}

@[simp] theorem get_commit (σ : Session) (scope : ContextScope) (st : Store) (s : ContextScope) :
    (σ.commit scope st).stores.get s = if scope = s then st else σ.stores.get s := Tiers.get_set ..

@[simp] theorem state_commit (σ : Session) (scope : ContextScope) (st : Store) :
    (σ.commit scope st).state = σ.state := rfl

@[simp] theorem stores_mapState (σ : Session) (f : State → State) : (σ.mapState f).stores = σ.stores := rfl

@[simp] theorem state_mapState (σ : Session) (f : State → State) : (σ.mapState f).state = f σ.state := rfl

@[simp] theorem stores_note (σ : Session) (m : Mark) : (σ.note m).stores = σ.stores := rfl

@[simp] theorem state_note (σ : Session) (m : Mark) : (σ.note m).state = σ.state := rfl

@[simp] theorem state_copied : (σ.copied P id item target).state = σ.state := rfl

@[simp] theorem state_deleted : (σ.deleted P id scope).state = σ.state := rfl

theorem mem_copied :
    q ∈ (σ.copied P id item target).stores.get s ↔ q ∈ σ.stores.get s ∨ s = target ∧ q ∈ encode P id item := by
  simp only [copied, get_commit]
  by_cases hs : target = s
  · subst hs; simp; tauto
  · simp [hs, Ne.symm hs]

theorem mem_deleted :
    q ∈ (σ.deleted P id scope).stores.get s ↔ q ∈ σ.stores.get s ∧ ¬ (s = scope ∧ Owned id q) := by
  simp only [deleted, get_commit]
  by_cases hs : scope = s
  · subst hs; simp [mem_deleteQuads]
  · simp [hs, Ne.symm hs]

theorem mem_moved :
    q ∈ (σ.moved P id e target arrival).stores.get s ↔
      (q ∈ σ.stores.get s ∨ s = target ∧ q ∈ encode P id e.item) ∧ ¬ (s = e.scope ∧ Owned id q) := by
  simp only [moved, stores_note, stores_mapState, mem_deleted, mem_copied]

theorem mem_dropped :
    q ∈ (σ.dropped P id e).stores.get s ↔ q ∈ σ.stores.get s ∧ ¬ (s = e.scope ∧ Owned id q) := by
  simp only [dropped, stores_note, stores_mapState, mem_deleted]

theorem mem_removed :
    q ∈ (σ.removed P id scope).stores.get s ↔ q ∈ σ.stores.get s ∧ ¬ (s = scope ∧ Owned id q) := by
  simp only [removed, stores_mapState, mem_deleted]

theorem mem_added {items : List ContextItem} {now : Instant} :
    q ∈ (σ.added P scope items now).stores.get s ↔
      q ∈ σ.stores.get s ∨ s = scope ∧ ∃ p ∈ σ.batch items, q ∈ encode P p.1 p.2 := by
  simp only [added, stores_mapState, get_commit]
  by_cases hs : scope = s
  · subst hs; simp only [if_true, Store.mem_insertAll, mem_encodeBatch, true_and]; exact or_comm
  · simp [hs, Ne.symm hs]

theorem items_moved : (σ.moved P id e target arrival).state.items[id']? =
    if id = id' then some (e.arrive target arrival) else σ.state.items[id']? := getElem?_insert ..

theorem items_dropped : (σ.dropped P id e).state.items[id']? =
    if id = id' then none else σ.state.items[id']? := getElem?_erase ..

theorem items_removed : (σ.removed P id scope).state.items[id']? =
    if id = id' then none else σ.state.items[id']? := getElem?_erase ..

theorem items_touched {now : Instant} : (σ.touched cfg id e now).state.items[id']? =
    if id = id' then some (e.touch cfg now) else σ.state.items[id']? := getElem?_insert ..

theorem moveItem_of_live (he : σ.state.items[id]? = some e) :
    σ.moveItem P target arrival id = σ.moved P id e target arrival := by
  simp [moveItem, he]

theorem dropItem_of_live (he : σ.state.items[id]? = some e) : σ.dropItem P id = σ.dropped P id e := by
  simp [dropItem, he]

theorem access_of_live {now : Instant} (he : σ.state.items[id]? = some e) :
    σ.access cfg now id = σ.touched cfg id e now := by
  simp [access, he]

/-! An effect on one item leaves the entries of all others alone. -/

theorem items_moveItem_ne (h : id ≠ id') :
    (σ.moveItem P target arrival id).state.items[id']? = σ.state.items[id']? := by
  unfold moveItem
  split
  · rfl
  · rw [items_moved, if_neg h]

theorem items_dropItem_ne (h : id ≠ id') : (σ.dropItem P id).state.items[id']? = σ.state.items[id']? := by
  unfold dropItem
  split
  · rfl
  · rw [items_dropped, if_neg h]

theorem items_evictVictim_ne (h : id ≠ id') :
    (σ.evictVictim P cfg scope id).state.items[id']? = σ.state.items[id']? := by
  unfold evictVictim
  split
  · rfl
  · split
    · exact items_moved.trans (if_neg h)
    · rw [items_dropped, if_neg h]

theorem items_access_ne {now : Instant} (h : id ≠ id') :
    (σ.access cfg now id).state.items[id']? = σ.state.items[id']? := by
  unfold access
  split
  · rfl
  · rw [items_touched, if_neg h]

end Session

theorem evictionTarget_lt {scope colder : ContextScope} {arrival : Arrival}
    (h : evictionTarget cfg scope arrival = some colder) : colder < scope := by
  unfold evictionTarget at h
  split at h
  · cases h
  · exact ContextScope.colder_lt h
  · split at h
    · exact ContextScope.colder_lt h
    · cases h
    · cases h

/-- Evicting a victim is a whole action, or two. -/
theorem Trail.evictVictim {scope : ContextScope} {id : ItemId} {e : Entry} (he : σ.state.items[id]? = some e)
    (hs : e.scope = scope) : Trail P cfg σ (σ.evictVictim P cfg scope id) := by
  unfold Session.evictVictim
  simp only [he]
  split
  · rename_i colder hcolder
    have hne : colder ≠ e.scope := hs ▸ (evictionTarget_lt hcolder).ne
    exact (Act.moved .demoted he hne).trail.trans (Act.counted 0 1).trail
  · exact (Act.dropped he).trail

@[simp] theorem Entry.arrive_item (e : Entry) (target : ContextScope) (arrival : Arrival) :
    (e.arrive target arrival).item = e.item := rfl

@[simp] theorem Entry.arrive_scope (e : Entry) (target : ContextScope) (arrival : Arrival) :
    (e.arrive target arrival).scope = target := rfl

@[simp] theorem Entry.touch_item (e : Entry) (now : Instant) : (e.touch cfg now).item = e.item := by
  unfold touch; split <;> rfl

@[simp] theorem Entry.touch_scope (e : Entry) (now : Instant) : (e.touch cfg now).scope = e.scope := by
  unfold touch; split <;> rfl

@[simp] theorem Entry.touch_arrival (e : Entry) (now : Instant) : (e.touch cfg now).arrival = e.arrival := by
  unfold touch; split <;> rfl

/-! ## Loops over ids -/

/-- What eviction from `scope` makes of an entry. -/
def Entry.evicted (cfg : Settings) (scope : ContextScope) (e : Entry) : Option Entry :=
  (evictionTarget cfg scope e.arrival).map fun colder => e.arrive colder .demoted

namespace Session

variable {ids : List ItemId} {id : ItemId} {scope target : ContextScope} {arrival : Arrival} {now : Instant}

/-- A loop over distinct ids whose body works on the entry of its id alone. -/
theorem items_foldl {f : Session → ItemId → Session} {g : Option Entry → Option Entry}
    (hself : ∀ σ id, (f σ id).state.items[id]? = g σ.state.items[id]?)
    (hne : ∀ σ id id', id ≠ id' → (f σ id).state.items[id']? = σ.state.items[id']?) (hnodup : ids.Nodup) :
    (ids.foldl f σ).state.items[id]? = if id ∈ ids then g σ.state.items[id]? else σ.state.items[id]? := by
  induction ids generalizing σ with
  | nil => simp
  | cons a ids ih =>
      obtain ⟨ha, hids⟩ := List.nodup_cons.mp hnodup
      rw [List.foldl_cons, ih hids]
      by_cases hid : a = id
      · subst hid
        simp [ha, hself]
      · simp [hne σ a id hid, Ne.symm hid]

theorem items_moveItems (hnodup : ids.Nodup) : (σ.moveItems P ids target arrival).state.items[id]? =
    if id ∈ ids then σ.state.items[id]?.map (·.arrive target arrival) else σ.state.items[id]? := by
  refine items_foldl (g := Option.map (·.arrive target arrival)) (fun σ id => ?_) (fun _ _ _ => items_moveItem_ne) hnodup
  unfold moveItem
  split
  · rename_i h; rw [h]; rfl
  · rename_i h; rw [h, items_moved, if_pos rfl]; rfl

theorem items_dropItems (hnodup : ids.Nodup) : (σ.dropItems P ids).state.items[id]? =
    if id ∈ ids then none else σ.state.items[id]? := by
  refine items_foldl (g := fun _ => none) (fun σ id => ?_) (fun _ _ _ => items_dropItem_ne) hnodup
  unfold dropItem
  split
  · assumption
  · rw [items_dropped, if_pos rfl]

theorem items_evictVictims (hnodup : ids.Nodup) : (σ.evictVictims P cfg scope ids).state.items[id]? =
    if id ∈ ids then σ.state.items[id]?.bind (·.evicted cfg scope) else σ.state.items[id]? := by
  refine items_foldl (g := (·.bind (·.evicted cfg scope))) (fun σ id => ?_) (fun _ _ _ => items_evictVictim_ne) hnodup
  unfold evictVictim
  split
  · rename_i h; rw [h]; rfl
  · rename_i e h
    rw [h, Option.bind_some, Entry.evicted]
    split
    · rename_i hcolder
      rw [hcolder]
      exact items_moved.trans (if_pos rfl)
    · rename_i hnone
      rw [hnone, items_dropped, if_pos rfl]
      rfl

theorem items_accesses (hnodup : ids.Nodup) : (ids.foldl (Session.access cfg now) σ).state.items[id]? =
    if id ∈ ids then σ.state.items[id]?.map (·.touch cfg now) else σ.state.items[id]? := by
  refine items_foldl (g := Option.map (·.touch cfg now)) (fun σ id => ?_) (fun _ _ _ => items_access_ne) hnodup
  unfold access
  split
  · rename_i h; rw [h]; rfl
  · rename_i h; rw [h, items_touched, if_pos rfl]; rfl

end Session

/-! ## What entries become -/

/-- An action adds no item, and all it does to an entry is to move it. -/
theorem Act.entry (h : Act P cfg σ τ) {id : ItemId} {e' : Entry} (he' : τ.state.items[id]? = some e') :
    ∃ e : Entry, σ.state.items[id]? = some e ∧ (e' = e ∨ ∃ target arrival, e' = e.arrive target arrival) := by
  cases h with
  | @moved id' e target arrival he hne =>
      rw [Session.items_moved] at he'
      split at he'
      · rename_i hid
        cases he'
        exact ⟨e, hid ▸ he, Or.inr ⟨target, arrival, rfl⟩⟩
      · exact ⟨e', he', Or.inl rfl⟩
  | dropped he =>
      rw [Session.items_dropped] at he'
      split at he'
      · cases he'
      · exact ⟨e', he', Or.inl rfl⟩
  | removed he =>
      rw [Session.items_removed] at he'
      split at he'
      · cases he'
      · exact ⟨e', he', Or.inl rfl⟩
  | counted promoted demoted => exact ⟨e', he', Or.inl rfl⟩
  | selected now scope count => exact ⟨e', he', Or.inl rfl⟩

/-! ## What stores get -/

/-- An action only writes quads that represent a live item. -/
theorem Act.stored (h : Act P cfg σ τ) {s : ContextScope} {q : Quad} (hq : q ∈ τ.stores.get s) :
    q ∈ σ.stores.get s ∨ ∃ (id : ItemId) (e : Entry), σ.state.items[id]? = some e ∧ q ∈ encode P id e.item := by
  cases h with
  | moved arrival he hne => exact (Session.mem_moved.mp hq).1.imp_right fun henc => ⟨_, _, he, henc.2⟩
  | dropped he => exact Or.inl (Session.mem_dropped.mp hq).1
  | removed he => exact Or.inl (Session.mem_removed.mp hq).1
  | counted promoted demoted => exact Or.inl hq
  | selected now scope count => exact Or.inl hq

theorem HalfMove.stored (h : HalfMove P σ τ) {s : ContextScope} {q : Quad} (hq : q ∈ τ.stores.get s) :
    q ∈ σ.stores.get s ∨ ∃ (id : ItemId) (e : Entry), σ.state.items[id]? = some e ∧ q ∈ encode P id e.item := by
  obtain ⟨id, e, target, he, -, rfl⟩ := h
  exact (Session.mem_copied.mp hq).imp_right fun henc => ⟨id, e, he, henc.2⟩

/-! ## What ids stand for, after an effect -/

namespace Session

variable {id id' : ItemId} {e : Entry} {item : ContextItem} {scope target : ContextScope} {arrival : Arrival}

theorem place_moved : (σ.moved P id e target arrival).state.place id' =
    if id = id' then some (e.item, target) else σ.state.place id' := by
  unfold State.place
  rw [items_moved]
  split <;> rfl

theorem place_dropped : (σ.dropped P id e).state.place id' = if id = id' then none else σ.state.place id' := by
  unfold State.place
  rw [items_dropped]
  split <;> rfl

theorem place_removed : (σ.removed P id scope).state.place id' =
    if id = id' then none else σ.state.place id' := by
  unfold State.place
  rw [items_removed]
  split <;> rfl

/-- An access keeps the item an id stands for, and its scope. -/
theorem place_access (σ : Session) (now : Instant) (id id' : ItemId) :
    (σ.access cfg now id).state.place id' = σ.state.place id' := by
  unfold State.place
  by_cases hid : id = id'
  · subst hid
    cases he : σ.state.items[id]? with
    | none => simp [access, he]
    | some e => simp [access_of_live he, items_touched]
  · rw [items_access_ne hid]

theorem stores_access (σ : Session) (now : Instant) (id : ItemId) : (σ.access cfg now id).stores = σ.stores := by
  unfold access; split <;> rfl

theorem nextId_access (σ : Session) (now : Instant) (id : ItemId) :
    (σ.access cfg now id).state.nextId = σ.state.nextId := by
  unfold access; split <;> rfl

/-- Answering a query changes access statistics and counters only. -/
theorem answered_same (σ : Session) (now : Instant) (ids : List ItemId) :
    (∀ id, (σ.answered cfg now ids).state.place id = σ.state.place id) ∧
      (σ.answered cfg now ids).stores = σ.stores ∧ (σ.answered cfg now ids).state.nextId = σ.state.nextId := by
  have hfold : ∀ τ : Session, (∀ id, (ids.foldl (Session.access cfg now) τ).state.place id = τ.state.place id) ∧
      (ids.foldl (Session.access cfg now) τ).stores = τ.stores ∧
      (ids.foldl (Session.access cfg now) τ).state.nextId = τ.state.nextId := by
    induction ids with
    | nil => exact fun τ => ⟨fun _ => rfl, rfl, rfl⟩
    | cons id ids ih =>
        intro τ
        obtain ⟨hplace, hstores, hnext⟩ := ih (τ.access cfg now id)
        refine ⟨fun id' => ?_, ?_, ?_⟩
        · exact (hplace id').trans (place_access ..)
        · exact hstores.trans (stores_access ..)
        · exact hnext.trans (nextId_access ..)
  exact hfold σ

end Session

theorem nextId_act (h : Act P cfg σ τ) : τ.state.nextId = σ.state.nextId := by cases h <;> rfl

theorem nextId_halfMove (h : HalfMove P σ τ) : τ.state.nextId = σ.state.nextId := by
  obtain ⟨_, _, _, _, _, rfl⟩ := h
  rfl

theorem nextId_ends (h : Ends P cfg σ τ) : τ.state.nextId = σ.state.nextId :=
  h.keeps (I := fun τ => τ.state.nextId = σ.state.nextId) (fun hact h => (nextId_act hact).trans h)
    (fun hhalf h => (nextId_halfMove hhalf).trans h) rfl

/-! ## The ids of a batch -/

theorem mem_idRange {first : UInt64} {count : Nat} (h : first.toNat + count < 2 ^ 64) {id : ItemId} :
    id ∈ idRange first count ↔ first.toNat ≤ id.n.toNat ∧ id.n.toNat < first.toNat + count := by
  simp only [idRange, List.mem_map, List.mem_range]
  constructor
  · rintro ⟨i, hi, rfl⟩
    simp only [UInt64.toNat_add, UInt64.toNat_ofNat']
    omega
  · rintro ⟨hle, hlt⟩
    refine ⟨id.n.toNat - first.toNat, by omega, ?_⟩
    apply ItemId.toNat_injective
    simp only [UInt64.toNat_add, UInt64.toNat_ofNat']
    omega

theorem idRange_nodup {first : UInt64} {count : Nat} (h : first.toNat + count < 2 ^ 64) :
    (idRange first count).Nodup := by
  refine List.Nodup.map_on ?_ List.nodup_range
  intro i hi j hj hij
  have hval := congrArg (fun id : ItemId => id.n.toNat) hij
  simp only [List.mem_range] at hi hj
  simp only [UInt64.toNat_add, UInt64.toNat_ofNat'] at hval
  omega

theorem idRange_length (first : UInt64) (count : Nat) : (idRange first count).length = count := by simp [idRange]

namespace Session

variable {items : List ContextItem} {scope : ContextScope} {now : Instant} {id : ItemId} {item : ContextItem}

theorem batch_ids : (σ.batch items).map Prod.fst = idRange σ.state.nextId items.length :=
  List.map_fst_zip (by rw [idRange_length])

theorem batch_items : (σ.batch items).map Prod.snd = items := List.map_snd_zip (by rw [idRange_length])

theorem batch_length : (σ.batch items).length = items.length := by
  simp [batch, idRange_length]

theorem mem_batch_ids (h : σ.state.nextId.toNat + items.length < 2 ^ 64) (hp : (id, item) ∈ σ.batch items) :
    σ.state.nextId.toNat ≤ id.n.toNat ∧ id.n.toNat < σ.state.nextId.toNat + items.length := by
  have hmem : id ∈ idRange σ.state.nextId items.length := batch_ids ▸ List.mem_map_of_mem hp
  exact (mem_idRange h).mp hmem

theorem batch_nodup (h : σ.state.nextId.toNat + items.length < 2 ^ 64) :
    ((σ.batch items).map Prod.fst).Nodup := by
  rw [batch_ids]
  exact idRange_nodup h

theorem nextId_added (h : σ.state.nextId.toNat + items.length < 2 ^ 64) :
    (σ.added P scope items now).state.nextId.toNat = σ.state.nextId.toNat + items.length := by
  show (σ.state.nextId + UInt64.ofNat items.length).toNat = _
  simp only [UInt64.toNat_add, UInt64.toNat_ofNat']
  omega

end Session

/-- The index after a list of entries was inserted. -/
theorem getElem?_insertAll {f : ContextItem → Entry} {batch : List (ItemId × ContextItem)}
    (hnodup : (batch.map Prod.fst).Nodup) (m : Index) (id : ItemId) :
    (batch.foldl (fun items p => items.insert p.1 (f p.2)) m)[id]? =
      match batch.find? (·.1 = id) with
      | some p => some (f p.2)
      | none => m[id]? := by
  induction batch generalizing m with
  | nil => rfl
  | cons p batch ih =>
      simp only [List.map_cons, List.nodup_cons] at hnodup
      rw [List.foldl_cons, ih hnodup.2]
      by_cases hp : p.1 = id
      · have hnone : batch.find? (·.1 = id) = none := by
          simp only [List.find?_eq_none, decide_eq_true_eq]
          rintro r hr rfl
          exact hnodup.1 (hp ▸ List.mem_map_of_mem hr)
        simp [hnone, List.find?_cons_of_pos, hp]
      · simp only [List.find?_cons_of_neg, hp, decide_false, Bool.false_eq_true, not_false_eq_true]
        split
        · rfl
        · exact getElem?_insert_ne _ _ hp

namespace Session

variable {items : List ContextItem} {scope : ContextScope} {now : Instant} {id : ItemId} {item : ContextItem}

theorem items_added_of_mem (h : σ.state.nextId.toNat + items.length < 2 ^ 64) (hp : (id, item) ∈ σ.batch items) :
    (σ.added P scope items now).state.items[id]? = some (Entry.new item scope .added now) := by
  have hnodup := batch_nodup h
  show (List.foldl _ _ _)[id]? = _
  rw [getElem?_insertAll (f := fun item => Entry.new item scope .added now) hnodup]
  split
  · rename_i p hfind
    have hid : p.1 = id := by simpa using List.find?_some hfind
    have hp' : (id, p.2) ∈ σ.batch items := hid ▸ List.mem_of_find?_eq_some hfind
    have hinj := List.inj_on_of_nodup_map hnodup hp hp' rfl
    rw [← (Prod.mk.inj hinj).2]
  · rename_i hfind
    simp only [List.find?_eq_none, decide_eq_true_eq] at hfind
    exact (hfind _ hp rfl).elim

theorem items_added_of_not_mem (h : σ.state.nextId.toNat + items.length < 2 ^ 64)
    (hid : id ∉ (σ.batch items).map Prod.fst) :
    (σ.added P scope items now).state.items[id]? = σ.state.items[id]? := by
  show (List.foldl _ _ _)[id]? = _
  rw [getElem?_insertAll (f := fun item => Entry.new item scope .added now) (batch_nodup h)]
  have hnone : (σ.batch items).find? (·.1 = id) = none := by
    simp only [List.find?_eq_none, decide_eq_true_eq]
    rintro r hr rfl
    exact hid (List.mem_map_of_mem hr)
  rw [hnone]
  rfl

theorem place_added_of_mem (h : σ.state.nextId.toNat + items.length < 2 ^ 64) (hp : (id, item) ∈ σ.batch items) :
    (σ.added P scope items now).state.place id = some (item, scope) :=
  State.place_of_live (items_added_of_mem h hp)

theorem place_added_of_not_mem (h : σ.state.nextId.toNat + items.length < 2 ^ 64)
    (hid : id ∉ (σ.batch items).map Prod.fst) :
    (σ.added P scope items now).state.place id = σ.state.place id := by
  unfold State.place
  rw [items_added_of_not_mem h hid]

theorem place_added_cases {s : ContextScope} (h : σ.state.nextId.toNat + items.length < 2 ^ 64)
    (hplace : (σ.added P scope items now).state.place id = some (item, s)) :
    (id, item) ∈ σ.batch items ∨ σ.state.place id = some (item, s) := by
  by_cases hid : id ∈ (σ.batch items).map Prod.fst
  · obtain ⟨⟨id', item'⟩, hp, rfl⟩ := List.mem_map.mp hid
    rw [place_added_of_mem h hp] at hplace
    cases hplace
    exact Or.inl hp
  · exact Or.inr (place_added_of_not_mem h hid ▸ hplace)

end Session

end Semanticore.Context
