import Semanticore.Context.Lemmas.Checks
import Semanticore.Context.Lemmas.Effects

/-!
# What the stores hold

A store holds the copy of an item or no quad of it. In every Session that operations reach, whatever transactions
fail, each live item has its copy in the store of its scope; without failures there is no other copy.
-/

namespace Semanticore.Context
open Semanticore.Core

/-- The quads of `id` in the store of `s` are exactly those that represent `item`. -/
def Holds (P : Platform) (σ : Session) (s : ContextScope) (id : ItemId) (item : ContextItem) : Prop :=
  ∀ q, Owned id q → (q ∈ σ.stores.get s ↔ q ∈ encode P id item)

/-- The store of `s` has no quad of `id`. -/
def Lacks (σ : Session) (s : ContextScope) (id : ItemId) : Prop := ∀ q, Owned id q → q ∉ σ.stores.get s

/-- The invariant of index and stores, over the list of ids issued so far with the items passed for them. -/
structure Sound (P : Platform) (L : List (ItemId × ContextItem)) (σ : Session) : Prop where
  distinct : ∀ {id a b}, (id, a) ∈ L → (id, b) ∈ L → a = b
  fresh : ∀ {id item}, (id, item) ∈ L → id.n.toNat < σ.state.nextId.toNat
  triples : ∀ {id item}, (id, item) ∈ L → ∀ q ∈ item.payload.quads, q.graph = .default
  known : ∀ {id item s}, σ.state.place id = some (item, s) → (id, item) ∈ L
  home : ∀ {id item s}, σ.state.place id = some (item, s) → Holds P σ s id item
  whole : ∀ {id item}, (id, item) ∈ L → ∀ s, Holds P σ s id item ∨ Lacks σ s id
  owned : ∀ {s q}, q ∈ σ.stores.get s → ∃ id item, (id, item) ∈ L ∧ Owned id q

/-- Every stored quad belongs to an item that is live in the scope of the store. -/
def Settled (σ : Session) : Prop :=
  ∀ ⦃s id q⦄, q ∈ σ.stores.get s → Owned id q → ∃ item, σ.state.place id = some (item, s)

variable {P : Platform} {cfg : Settings} {L : List (ItemId × ContextItem)} {σ τ : Session} {id : ItemId} {item : ContextItem}
  {s target : ContextScope}

/-! ## Copies -/

theorem Holds.mem (h : Holds P σ s id item) {q : Quad} (hq : q ∈ encode P id item) : q ∈ σ.stores.get s :=
  (h q (owned_of_mem_encode hq)).mpr hq

theorem Holds.of_mem (h : Holds P σ s id item) {q : Quad} (hq : q ∈ σ.stores.get s) (ho : Owned id q) :
    q ∈ encode P id item := (h q ho).mp hq

theorem Holds.not_lacks (h : Holds P σ s id item) : ¬ Lacks σ s id := fun hlacks =>
  hlacks _ (owned_of_mem_encode (metadataQuad_mem_encode P id item)) (h.mem (metadataQuad_mem_encode P id item))

/-- Two copies of one id are copies of items with the same quads. -/
theorem Holds.congr (h : Holds P σ s id item) (hq : ∀ q, Owned id q → (q ∈ τ.stores.get s ↔ q ∈ σ.stores.get s)) :
    Holds P τ s id item := fun q ho => (hq q ho).trans (h q ho)

theorem Lacks.congr (h : Lacks σ s id) (hq : ∀ q, Owned id q → (q ∈ τ.stores.get s ↔ q ∈ σ.stores.get s)) :
    Lacks τ s id := fun q ho hmem => h q ho ((hq q ho).mp hmem)

theorem holds_or_lacks_congr (h : Holds P σ s id item ∨ Lacks σ s id)
    (hq : ∀ q, Owned id q → (q ∈ τ.stores.get s ↔ q ∈ σ.stores.get s)) : Holds P τ s id item ∨ Lacks τ s id :=
  h.imp (·.congr hq) (·.congr hq)

/-! ## Effects on one item

An action touches the quads and the entry of one live item. -/

/-- `τ` is `σ` but for the item `id`, which keeps its copies whole and, if still live, has one where it is. -/
structure Relocates (P : Platform) (id : ItemId) (item : ContextItem) (σ τ : Session) : Prop where
  nextId : τ.state.nextId = σ.state.nextId
  others : ∀ id', id ≠ id' → τ.state.place id' = σ.state.place id'
  frame : ∀ s q, ¬ Owned id q → (q ∈ τ.stores.get s ↔ q ∈ σ.stores.get s)
  whole : ∀ s, Holds P τ s id item ∨ Lacks τ s id
  home : ∀ {item' s}, τ.state.place id = some (item', s) → item' = item ∧ Holds P τ s id item

theorem Relocates.congr (h : Relocates P id item σ τ) {id' : ItemId} (hne : id ≠ id') (s : ContextScope) :
    ∀ q, Owned id' q → (q ∈ τ.stores.get s ↔ q ∈ σ.stores.get s) :=
  fun q ho => h.frame s q fun ho' => hne (ho'.unique ho)

theorem Sound.relocate (hσ : Sound P L σ) (hL : (id, item) ∈ L) (h : Relocates P id item σ τ) : Sound P L τ where
  distinct := hσ.distinct
  fresh hp := h.nextId ▸ hσ.fresh hp
  triples := hσ.triples
  known {id' item' s} hplace := by
    by_cases hid : id = id'
    · subst hid
      exact (h.home hplace).1 ▸ hL
    · exact hσ.known (h.others id' hid ▸ hplace)
  home {id' item' s} hplace := by
    by_cases hid : id = id'
    · subst hid
      exact (h.home hplace).1 ▸ (h.home hplace).2
    · exact (hσ.home (h.others id' hid ▸ hplace)).congr (h.congr hid s)
  whole {id' item'} hp s := by
    by_cases hid : id = id'
    · subst hid
      exact hσ.distinct hL hp ▸ h.whole s
    · exact holds_or_lacks_congr (hσ.whole hp s) (h.congr hid s)
  owned {s q} hq := by
    by_cases ho : Owned id q
    · exact ⟨id, item, hL, ho⟩
    · exact hσ.owned ((h.frame s q ho).mp hq)

/-- Writing the copy of an issued item over whatever the store has of it. -/
theorem Sound.holds_of_insert (hσ : Sound P L σ) (hL : (id, item) ∈ L)
    (h : ∀ q, Owned id q → (q ∈ τ.stores.get s ↔ q ∈ σ.stores.get s ∨ q ∈ encode P id item)) :
    Holds P τ s id item := by
  intro q ho
  rw [h q ho]
  rcases hσ.whole hL s with hholds | hlacks
  · rw [hholds q ho, or_self]
  · simp [hlacks q ho]

section
variable {e : Entry} {arrival : Arrival}

theorem Sound.relocates_copied (hσ : Sound P L σ) (he : σ.state.items[id]? = some e) (hne : target ≠ e.scope) :
    Relocates P id e.item σ (σ.copied P id e.item target) := by
  have hplace := State.place_of_live he
  have hL := hσ.known hplace
  have hsame : ∀ s, s ≠ target → ∀ q, Owned id q →
      (q ∈ (σ.copied P id e.item target).stores.get s ↔ q ∈ σ.stores.get s) := by
    intro s hs q _
    simp [Session.mem_copied, hs]
  have hholds : Holds P (σ.copied P id e.item target) target id e.item :=
    hσ.holds_of_insert hL fun q _ => by simp [Session.mem_copied]
  refine ⟨rfl, fun _ _ => rfl, fun s q ho => ?_, fun s => ?_, fun {item' s} hplace' => ?_⟩
  · simp only [Session.mem_copied, or_iff_left_iff_imp, and_imp]
    exact fun _ hq => (ho (owned_of_mem_encode hq)).elim
  · by_cases hs : s = target
    · exact Or.inl (hs ▸ hholds)
    · exact holds_or_lacks_congr (hσ.whole hL s) (hsame s hs)
  · rw [Session.state_copied, hplace] at hplace'
    cases hplace'
    exact ⟨rfl, (hσ.home hplace).congr (hsame e.scope hne.symm)⟩

theorem Sound.relocates_moved (hσ : Sound P L σ) (he : σ.state.items[id]? = some e) (hne : target ≠ e.scope) :
    Relocates P id e.item σ (σ.moved P id e target arrival) := by
  have hL := hσ.known (State.place_of_live he)
  have hholds : Holds P (σ.moved P id e target arrival) target id e.item :=
    hσ.holds_of_insert hL fun q _ => by simp [Session.mem_moved, hne]
  refine ⟨rfl, fun id' hid => by rw [Session.place_moved, if_neg hid], fun s q ho => ?_, fun s => ?_,
    fun {item' s} hplace => ?_⟩
  · simp only [Session.mem_moved, ho, and_false, not_false_eq_true, and_true, or_iff_left_iff_imp, and_imp]
    exact fun _ hq => (ho (owned_of_mem_encode hq)).elim
  · by_cases hs : s = target
    · exact Or.inl (hs ▸ hholds)
    by_cases hs' : s = e.scope
    · exact Or.inr fun q ho => by simp [Session.mem_moved, hs', ho]
    · exact holds_or_lacks_congr (hσ.whole hL s) fun q _ => by simp [Session.mem_moved, hs, hs']
  · rw [Session.place_moved, if_pos rfl] at hplace
    cases hplace
    exact ⟨rfl, hholds⟩

/-- Deleting the quads of a live item and its entry. -/
theorem Sound.relocates_deleted (hσ : Sound P L σ) (he : σ.state.items[id]? = some e)
    (hnext : τ.state.nextId = σ.state.nextId)
    (hplace : ∀ id', τ.state.place id' = if id = id' then none else σ.state.place id')
    (hmem : ∀ s q, q ∈ τ.stores.get s ↔ q ∈ σ.stores.get s ∧ ¬ (s = e.scope ∧ Owned id q)) :
    Relocates P id e.item σ τ := by
  have hL := hσ.known (State.place_of_live he)
  refine ⟨hnext, fun id' hid => by rw [hplace, if_neg hid], fun s q ho => by simp [hmem, ho], fun s => ?_,
    fun {item' s} h => ?_⟩
  · by_cases hs : s = e.scope
    · exact Or.inr fun q ho => by simp [hmem, hs, ho]
    · exact holds_or_lacks_congr (hσ.whole hL s) fun q _ => by simp [hmem, hs]
  · rw [hplace, if_pos rfl] at h
    cases h

theorem Sound.relocates_dropped (hσ : Sound P L σ) (he : σ.state.items[id]? = some e) :
    Relocates P id e.item σ (σ.dropped P id e) :=
  hσ.relocates_deleted he rfl (fun _ => Session.place_dropped) fun _ _ => Session.mem_dropped

theorem Sound.relocates_removed (hσ : Sound P L σ) (he : σ.state.items[id]? = some e) :
    Relocates P id e.item σ (σ.removed P id e.scope) :=
  hσ.relocates_deleted he rfl (fun _ => Session.place_removed) fun _ _ => Session.mem_removed

end

/-! ## Effects on statistics -/

/-- `τ` differs from `σ` in access statistics, counters and log only. -/
structure SamePlaces (σ τ : Session) : Prop where
  place : ∀ id, τ.state.place id = σ.state.place id
  stores : τ.stores = σ.stores
  nextId : τ.state.nextId = σ.state.nextId

theorem Sound.same (hσ : Sound P L σ) (h : SamePlaces σ τ) : Sound P L τ where
  distinct := hσ.distinct
  fresh hp := h.nextId ▸ hσ.fresh hp
  triples := hσ.triples
  known hplace := hσ.known (h.place _ ▸ hplace)
  home hplace := (hσ.home (h.place _ ▸ hplace)).congr fun q _ => by rw [h.stores]
  whole hp s := holds_or_lacks_congr (hσ.whole hp s) fun q _ => by rw [h.stores]
  owned hq := hσ.owned (h.stores ▸ hq)

theorem Settled.same (hσ : Settled σ) (h : SamePlaces σ τ) : Settled τ := by
  intro s id q hq ho
  rw [h.place]
  exact hσ (h.stores ▸ hq) ho

theorem samePlaces_answered (cfg : Settings) (σ : Session) (now : Instant) (ids : List ItemId) :
    SamePlaces σ (σ.answered cfg now ids) :=
  ⟨(Session.answered_same σ now ids).1, (Session.answered_same σ now ids).2.1, (Session.answered_same σ now ids).2.2⟩

/-! ## Actions -/

theorem Sound.act (hσ : Sound P L σ) (h : Act P cfg σ τ) : Sound P L τ := by
  cases h with
  | moved arrival he hne => exact hσ.relocate (hσ.known (State.place_of_live he)) (hσ.relocates_moved he hne)
  | dropped he => exact hσ.relocate (hσ.known (State.place_of_live he)) (hσ.relocates_dropped he)
  | removed he => exact hσ.relocate (hσ.known (State.place_of_live he)) (hσ.relocates_removed he)
  | counted promoted demoted => exact hσ.same ⟨fun _ => rfl, rfl, rfl⟩
  | selected now scope count => exact hσ.same ⟨fun _ => rfl, rfl, rfl⟩

theorem Sound.halfMove (hσ : Sound P L σ) (h : HalfMove P σ τ) : Sound P L τ := by
  obtain ⟨id, e, target, he, hne, rfl⟩ := h
  exact hσ.relocate (hσ.known (State.place_of_live he)) (hσ.relocates_copied he hne)

theorem Sound.ends (hσ : Sound P L σ) (h : Ends P cfg σ τ) : Sound P L τ :=
  h.keeps (fun hact h => h.act hact) (fun hhalf h => h.halfMove hhalf) hσ

theorem Settled.deleted {id' : ItemId} {e : Entry} {q : Quad} (hsettled : Settled σ)
    (he : σ.state.items[id]? = some e)
    (hplace : τ.state.place id' = if id = id' then none else σ.state.place id')
    (hq : q ∈ σ.stores.get s ∧ ¬ (s = e.scope ∧ Owned id q)) (ho : Owned id' q) :
    ∃ item, τ.state.place id' = some (item, s) := by
  obtain ⟨item, hσ⟩ := hsettled hq.1 ho
  rw [hplace]
  split
  · rename_i hid
    subst hid
    rw [State.place_of_live he] at hσ
    cases hσ
    exact (hq.2 ⟨rfl, ho⟩).elim
  · exact ⟨item, hσ⟩

theorem Settled.act (hsettled : Settled σ) (h : Act P cfg σ τ) : Settled τ := by
  cases h with
  | @moved id e target arrival he hne =>
      intro s id' q hq ho
      obtain ⟨hq, hgone⟩ := Session.mem_moved.mp hq
      rw [Session.place_moved]
      by_cases hid : id = id'
      · subst hid
        rw [if_pos rfl]
        rcases hq with hq | ⟨rfl, -⟩
        · -- The only copy was in the scope the item left.
          obtain ⟨item, hplace⟩ := hsettled hq ho
          rw [State.place_of_live he] at hplace
          cases hplace
          exact (hgone ⟨rfl, ho⟩).elim
        · exact ⟨e.item, rfl⟩
      · rw [if_neg hid]
        rcases hq with hq | ⟨-, henc⟩
        · exact hsettled hq ho
        · exact (hid ((owned_of_mem_encode henc).unique ho)).elim
  | @dropped id e he =>
      intro s id' q hq ho
      exact hsettled.deleted he Session.place_dropped (Session.mem_dropped.mp hq) ho
  | @removed id e he =>
      intro s id' q hq ho
      exact hsettled.deleted he Session.place_removed (Session.mem_removed.mp hq) ho
  | counted promoted demoted => exact hsettled.same ⟨fun _ => rfl, rfl, rfl⟩
  | selected now scope count => exact hsettled.same ⟨fun _ => rfl, rfl, rfl⟩

theorem Settled.trail (hσ : Settled σ) (h : Trail P cfg σ τ) : Settled τ :=
  h.keeps (I := fun σ => Settled σ) (fun hact h => h.act hact) hσ

/-! ## Batches -/

section
variable {items : List ContextItem} {scope : ContextScope} {now : Instant}

/-- The ids of a batch were never issued before. -/
theorem Sound.not_mem_batch (hσ : Sound P L σ) (hadm : Admissible σ items) (hL : (id, item) ∈ L) :
    id ∉ (σ.batch items).map Prod.fst := by
  intro hid
  obtain ⟨⟨id', item'⟩, hp, rfl⟩ := List.mem_map.mp hid
  have hlow := (Session.mem_batch_ids hadm.room hp).1
  have hfresh := hσ.fresh hL
  dsimp only at hfresh
  omega

theorem Sound.place_added (hσ : Sound P L σ) (hadm : Admissible σ items) :
    (σ.added P scope items now).state.place id = some (item, s) ↔
      (id, item) ∈ σ.batch items ∧ s = scope ∨ σ.state.place id = some (item, s) := by
  by_cases hid : id ∈ (σ.batch items).map Prod.fst
  · obtain ⟨⟨id', item'⟩, hp, rfl⟩ := List.mem_map.mp hid
    rw [Session.place_added_of_mem hadm.room hp]
    constructor
    · intro h
      cases h
      exact Or.inl ⟨hp, rfl⟩
    · rintro (⟨hp', rfl⟩ | hplace)
      · have hinj := List.inj_on_of_nodup_map (Session.batch_nodup hadm.room) hp hp' rfl
        rw [(Prod.mk.inj hinj).2]
      · exact (hσ.not_mem_batch hadm (hσ.known hplace) hid).elim
  · rw [Session.place_added_of_not_mem hadm.room hid]
    constructor
    · exact Or.inr
    · rintro (⟨hp, -⟩ | hplace)
      · exact (hid (List.mem_map_of_mem hp)).elim
      · exact hplace

theorem Sound.frame_added (hσ : Sound P L σ) (hadm : Admissible σ items) (hL : (id, item) ∈ L) (s : ContextScope) :
    ∀ q, Owned id q → (q ∈ (σ.added P scope items now).stores.get s ↔ q ∈ σ.stores.get s) := by
  intro q ho
  rw [Session.mem_added, or_iff_left_iff_imp]
  rintro ⟨-, p, hp, henc⟩
  exact (hσ.not_mem_batch hadm hL ((owned_of_mem_encode henc).unique ho ▸ List.mem_map_of_mem hp)).elim

theorem Sound.holds_batch (hσ : Sound P L σ) (hadm : Admissible σ items) (hp : (id, item) ∈ σ.batch items) :
    Holds P (σ.added P scope items now) scope id item := by
  intro q ho
  rw [Session.mem_added]
  constructor
  · rintro (hq | ⟨-, p, hp', henc⟩)
    · obtain ⟨id', item', hL, ho'⟩ := hσ.owned hq
      exact (hσ.not_mem_batch hadm hL (ho'.unique ho ▸ List.mem_map_of_mem hp)).elim
    · have hid : p.1 = id := (owned_of_mem_encode henc).unique ho
      have hinj := List.inj_on_of_nodup_map (Session.batch_nodup hadm.room) hp' hp hid
      rw [hinj] at henc
      exact henc
  · exact fun henc => Or.inr ⟨rfl, (id, item), hp, henc⟩

theorem Sound.added (hσ : Sound P L σ) (hadm : Admissible σ items) :
    Sound P (L ++ σ.batch items) (σ.added P scope items now) where
  distinct {id a b} ha hb := by
    rcases List.mem_append.mp ha with ha | ha <;> rcases List.mem_append.mp hb with hb | hb
    · exact hσ.distinct ha hb
    · exact (hσ.not_mem_batch hadm ha (List.mem_map_of_mem hb)).elim
    · exact (hσ.not_mem_batch hadm hb (List.mem_map_of_mem ha)).elim
    · have hinj := List.inj_on_of_nodup_map (Session.batch_nodup hadm.room) ha hb rfl
      exact (Prod.mk.inj hinj).2
  fresh {id item} hp := by
    rw [Session.nextId_added hadm.room]
    rcases List.mem_append.mp hp with hp | hp
    · have := hσ.fresh hp
      omega
    · exact (Session.mem_batch_ids hadm.room hp).2
  triples {id item} hp := by
    rcases List.mem_append.mp hp with hp | hp
    · exact hσ.triples hp
    · have hitems : (σ.batch items).map Prod.snd = items := Session.batch_items
      have hitem : item ∈ items := hitems ▸ List.mem_map_of_mem hp
      exact (validate_ok.mp (hadm.valid item hitem)).2.1
  known hplace := by
    rcases (hσ.place_added hadm).mp hplace with ⟨hp, -⟩ | hplace
    · exact List.mem_append.mpr (Or.inr hp)
    · exact List.mem_append.mpr (Or.inl (hσ.known hplace))
  home {id item s} hplace := by
    rcases (hσ.place_added hadm).mp hplace with ⟨hp, rfl⟩ | hplace
    · exact hσ.holds_batch hadm hp
    · exact (hσ.home hplace).congr (hσ.frame_added hadm (hσ.known hplace) s)
  whole {id item} hp s := by
    rcases List.mem_append.mp hp with hp | hp
    · exact holds_or_lacks_congr (hσ.whole hp s) (hσ.frame_added hadm hp s)
    · by_cases hs : s = scope
      · exact Or.inl (hs ▸ hσ.holds_batch hadm hp)
      · refine Or.inr fun q ho hq => ?_
        rcases Session.mem_added.mp hq with hq | ⟨hs', -⟩
        · obtain ⟨id', item', hL, ho'⟩ := hσ.owned hq
          exact hσ.not_mem_batch hadm hL (ho'.unique ho ▸ List.mem_map_of_mem hp)
        · exact hs hs'
  owned {s q} hq := by
    rcases Session.mem_added.mp hq with hq | ⟨-, p, hp, henc⟩
    · obtain ⟨id, item, hL, ho⟩ := hσ.owned hq
      exact ⟨id, item, List.mem_append.mpr (Or.inl hL), ho⟩
    · exact ⟨p.1, p.2, List.mem_append.mpr (Or.inr hp), owned_of_mem_encode henc⟩

theorem Settled.added (hsettled : Settled σ) (hσ : Sound P L σ) (hadm : Admissible σ items) :
    Settled (σ.added P scope items now) := by
  intro s id q hq ho
  rcases Session.mem_added.mp hq with hq | ⟨rfl, p, hp, henc⟩
  · obtain ⟨item, hplace⟩ := hsettled hq ho
    exact ⟨item, (hσ.place_added hadm).mpr (Or.inr hplace)⟩
  · have hid : p.1 = id := (owned_of_mem_encode henc).unique ho
    exact ⟨p.2, hid ▸ (hσ.place_added hadm).mpr (Or.inl ⟨hp, rfl⟩)⟩

end

end Semanticore.Context
