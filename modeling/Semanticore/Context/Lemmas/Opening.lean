import Semanticore.Context.Lemmas.Open

/-!
# Opening any stores

What `open` makes of the records in three stores, whoever wrote them.
-/

namespace Semanticore.Context
open Semanticore.Core Semanticore.Lib

/-- The index and `next_id` that `open` builds at `now`. -/
structure Loaded (P : Platform) (stores : Tiers Store) (now : Instant) (st : State) : Prop where
  entry : ∀ (id : ItemId) (e : Entry), st.items[id]? = some e → e = Entry.new e.item e.scope .added now ∧
    ∃ loaded, load P (stores.get e.scope) = .ok loaded ∧ (id, e.item) ∈ loaded
  complete : ∀ s, ∃ loaded, load P (stores.get s) = .ok loaded ∧ ∀ p ∈ loaded, ∃ e : Entry, st.items[p.1]? = some e
  next : (st.nextId = 0 ∧ ∀ id : ItemId, st.items[id]? = none) ∨ ∃ last : ItemId, (∃ e : Entry, st.items[last]? = some e) ∧
    st.nextId.toNat = last.n.toNat + 1 ∧ ∀ (id : ItemId) (e : Entry), st.items[id]? = some e → id ≤ last
  stats : st.stats = .zero

/-- Every store can be loaded, and one has a record of the last id. -/
def Overfull (P : Platform) (stores : Tiers Store) : Prop :=
  (∀ s, ∃ loaded, load P (stores.get s) = .ok loaded) ∧
    ∃ s loaded id item, load P (stores.get s) = .ok loaded ∧ (id, item) ∈ loaded ∧ id.n.toNat + 1 = 2 ^ 64

variable {P : Platform} {w w' : World} {items : Index} {now : Instant} {stores : Tiers Store} {rest : List ContextScope}

/-- The index after the scopes not in `rest` were loaded. -/
structure Loading (P : Platform) (stores : Tiers Store) (now : Instant) (rest : List ContextScope) (items : Index) :
    Prop where
  entry : ∀ (id : ItemId) (e : Entry), items[id]? = some e → e = Entry.new e.item e.scope .added now ∧
    ∃ loaded, load P (stores.get e.scope) = .ok loaded ∧ (id, e.item) ∈ loaded
  complete : ∀ s, s ∉ rest →
    ∃ loaded, load P (stores.get s) = .ok loaded ∧ ∀ p ∈ loaded, ∃ e : Entry, items[p.1]? = some e

theorem Loading.next {scope : ContextScope} {loaded : List (ItemId × ContextItem)}
    (h : Loading P stores now (scope :: rest) items) (hload : load P (stores.get scope) = .ok loaded) :
    Loading P stores now rest (mergeLoaded now scope items loaded) where
  entry id e he := by
    rcases mergeLoaded_some he with he | ⟨-, item, hloaded, rfl⟩
    · exact h.entry id e he
    · exact ⟨rfl, loaded, hload, hloaded⟩
  complete s hs := by
    by_cases hscope : s = scope
    · subst hscope
      exact ⟨loaded, hload, fun p hp => mergeLoaded_of_mem hp⟩
    · obtain ⟨loaded', hload', hall⟩ := h.complete s (by simp [hs, hscope])
      refine ⟨loaded', hload', fun p hp => ?_⟩
      obtain ⟨e, he⟩ := hall p hp
      exact ⟨e, mergeLoaded_of_some he⟩

theorem load_each {E : Halt → World → Prop} (hE : ∀ e w', E (.err e) w') :
    Runs Later (ContextScope.all.foldlM (loadScope P now) ∅) w
      (fun items w' => w'.session = w.session ∧ Loading P w.session.stores now [] items) E := by
  refine Runs.foldlM (I := fun rest items (w' : World) => w'.session = w.session ∧
    Loading P w.session.stores now rest items) ?_
    ⟨rfl, fun id e he => by simp at he, fun s hs => (hs (ContextScope.mem_all s)).elim⟩
  rintro items scope rest w₂ ⟨hw₂, hloading⟩
  unfold loadScope
  refine (transaction_spec.mono (fun _ _ _ h => h) fun h w' _ hh => hh.storage ▸ hE _ _).bind fun _ w₃ _ h₃ => ?_
  apply runs_getSession
  refine (liftExcept_spec.mono (fun _ _ _ h => h) fun h w' _ hh => ?_).bind fun loaded w₄ _ h₄ => ?_
  · obtain ⟨-, e, rfl, -⟩ := hh
    exact hE _ _
  · obtain ⟨rfl, hload⟩ := h₄
    rw [h₃, hw₂] at hload
    exact Runs.ret ⟨h₃.trans hw₂, hloading.next hload⟩

/-- `open` on any stores. It panics only if there is no id left. -/
theorem open_loaded {persistent : Tiers Bool} : Runs Later (openSession P persistent) w
    (fun _ w' => w'.session.stores = w.session.stores ∧ Loaded P w.session.stores w.reading w'.session.state ∧
      w.reading ≤ w'.now)
    (fun h _ => h = .panic → Overfull P w.session.stores) := by
  unfold openSession
  split
  · exact runs_throw (fun h => by cases h)
  refine instantNow_spec.bind fun now w₁ _ h₁ => ?_
  obtain ⟨hw₁, rfl, hnow⟩ := h₁
  refine (load_each fun e w' h => by cases h).bind fun items w₂ hR₂ h₂ => ?_
  obtain ⟨hw₂, hloading⟩ := h₂
  have hpast : w.reading ≤ w₂.now := hnow ▸ hR₂.2
  rw [hw₁] at hloading
  have hstores : w₂.session.stores = w.session.stores := congrArg Session.stores (hw₂.trans hw₁)
  have hcomplete := fun s => hloading.complete s (List.not_mem_nil)
  cases hlast : items.keys.getLast? with
  | none =>
      refine Runs.update ⟨List.suffix_rfl, le_rfl⟩ ⟨hstores, ⟨hloading.entry, hcomplete, Or.inl ⟨rfl, ?_⟩, rfl⟩, hpast⟩
      exact getElem?_of_getLast?_eq_none hlast
  | some last =>
      obtain ⟨e, he⟩ : ∃ e : Entry, items[last]? = some e :=
        Option.isSome_iff_exists.mp (Std.TreeMap.mem_iff_isSome_getElem?.mp
          (Std.TreeMap.mem_keys.mp (List.mem_of_getLast? hlast)))
      refine (checkedAdd_spec.mono (fun _ _ _ h => h) fun h w' _ hh _ => ?_).bind fun next w₃ _ h₃ => ?_
      · obtain ⟨-, loaded, hload, hmem⟩ := hloading.entry last e he
        have hlt := last.n.toNat_lt
        exact ⟨fun s => (hcomplete s).imp fun _ h => h.1, e.scope, loaded, last, e.item, hload, hmem, by omega⟩
      · obtain ⟨rfl, rfl, hroom⟩ := h₃
        refine Runs.update ⟨List.suffix_rfl, le_rfl⟩
          ⟨hstores, ⟨hloading.entry, hcomplete, Or.inr ⟨last, ⟨e, he⟩, ?_, fun id e he => le_of_getLast? hlast he⟩, rfl⟩, hpast⟩
        show (last.n + UInt64.ofNat 1).toNat = _
        simp only [UInt64.toNat_add, UInt64.toNat_ofNat']
        omega

theorem Loaded.fresh {st : State} (h : Loaded P stores now st) (id : ItemId) (e : Entry) (he : st.items[id]? = some e) :
    id.n.toNat < st.nextId.toNat := by
  rcases h.next with ⟨-, hnone⟩ | ⟨last, -, hnext, hle⟩
  · cases (hnone id).symm.trans he
  · have hid : id.n.toNat ≤ last.n.toNat := not_lt.mp fun hlt => absurd (hle id e he) (not_le.mpr hlt)
    omega

/-- What `open` finds in any stores: items with a quad in some store, with ids below `next_id`, not touched later than
now. -/
structure Found (stores : Tiers Store) (w : World) : Prop where
  same : w.session.stores = stores
  owned : ∀ (id : ItemId) (e : Entry), w.session.state.items[id]? = some e → ∃ s, ∃ q ∈ stores.get s, Owned id q
  fresh : ∀ (id : ItemId) (e : Entry), w.session.state.items[id]? = some e → id.n.toNat < w.session.state.nextId.toNat
  past : ∀ (id : ItemId) (e : Entry), w.session.state.items[id]? = some e → e.lastTouch ≤ w.now

theorem open_found {persistent : Tiers Bool} :
    Runs Later (openSession P persistent) w (fun _ w' => Found w.session.stores w') (fun _ _ => True) := by
  refine open_loaded.mono (fun _ w' _ h => ?_) fun _ _ _ _ => trivial
  obtain ⟨hstores, hloaded, hle⟩ := h
  refine ⟨hstores, fun id e he => ?_, hloaded.fresh, fun id e he => ?_⟩
  · obtain ⟨-, loaded, hload, hmem⟩ := hloaded.entry id e he
    exact ⟨e.scope, load_owned hload hmem⟩
  · rw [(hloaded.entry id e he).1]
    exact hle

end Semanticore.Context
