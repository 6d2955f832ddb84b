import Semanticore.Context.QueryScan

/-!
# Snapshots

`Session::snapshot`: the items of a scope and the number of quads in its store. The number tells how much of the store
is not accounted for by the items.
-/

namespace Semanticore.Context
open Semanticore.Core

structure ContextSnapshot where
  scope : ContextScope
  items : List (ItemId × ContextItem)
  quadCount : Nat

def snapshot (scope : ContextScope) : SessionM ContextSnapshot := do
  let st ← getState
  let items := (st.inScope scope).map fun p => (p.1, p.2.item)
  transaction
  let quadCount := ((← get).session.stores.get scope).quads.length
  return { scope, items, quadCount }

/-- The snapshot of a scope of a Session at rest. -/
def Session.snapshot (σ : Session) (scope : ContextScope) : ContextSnapshot :=
  { scope
    items := (σ.state.inScope scope).map fun p => (p.1, p.2.item)
    quadCount := (σ.stores.get scope).quads.length }

theorem run_snapshot (w : World) (scope : ContextScope) : (snapshot scope).run.run w =
    (if w.fates.head? = some .fail then .error (.err .storage) else .ok (w.session.snapshot scope),
      { w with fates := w.fates.tail }) := by
  obtain ⟨σ, fates, elapsed, now⟩ := w
  cases fates with
  | nil => rfl
  | cons fate fates => cases fate <;> rfl

/-! ## The quads of one item -/

/-- How many quads the storage of an item takes: its triples, and one metadata quad. -/
def storedQuads (item : ContextItem) : Nat := item.payload.quads.toFinset.card + 1

variable {P : Platform} {L : List (ItemId × ContextItem)} {σ : Session} {id : ItemId} {item : ContextItem}
  {scope : ContextScope}

theorem card_encode (h : ∀ q ∈ item.payload.quads, q.graph = .default) :
    (encode P id item).toFinset.card = storedQuads item := by
  have himage : (encode P id item).toFinset =
      insert (metadataQuad P id item) (item.payload.quads.toFinset.image (inItemGraph id)) := by
    ext q
    simp [mem_encode, or_comm]
  have hnot : metadataQuad P id item ∉ item.payload.quads.toFinset.image (inItemGraph id) := by
    simp only [Finset.mem_image, not_exists, not_and]
    intro t _ heq
    exact metaGraph_ne_itemGraph id (congrArg Quad.graph heq).symm
  rw [himage, Finset.card_insert_of_notMem hnot, storedQuads,
    Finset.card_image_of_injOn fun q hq q' hq' => inItemGraph_injOn h (by simpa using hq) (by simpa using hq')]

/-! ## The quads of a store -/

open Classical in
/-- The items of which the store of `scope` has a copy. -/
noncomputable def copies (P : Platform) (L : List (ItemId × ContextItem)) (σ : Session) (scope : ContextScope) :
    Finset (ItemId × ContextItem) :=
  L.toFinset.filter fun p => Holds P σ scope p.1 p.2

theorem mem_copies {p : ItemId × ContextItem} : p ∈ copies P L σ scope ↔ p ∈ L ∧ Holds P σ scope p.1 p.2 := by
  simp [copies]

/-- A store is made of the copies it has. -/
theorem Sound.quads_eq (hσ : Sound P L σ) (scope : ContextScope) :
    (σ.stores.get scope).quads.toFinset = (copies P L σ scope).biUnion fun p => (encode P p.1 p.2).toFinset := by
  ext q
  simp only [List.mem_toFinset, Finset.mem_biUnion, mem_copies]
  constructor
  · intro hq
    obtain ⟨id, item, hL, ho⟩ := hσ.owned hq
    rcases hσ.whole hL scope with hholds | hlacks
    · exact ⟨(id, item), ⟨hL, hholds⟩, hholds.of_mem hq ho⟩
    · exact (hlacks q ho hq).elim
  · rintro ⟨p, ⟨-, hholds⟩, henc⟩
    exact hholds.mem henc

theorem Sound.quadCount_eq (hσ : Sound P L σ) (scope : ContextScope) :
    (σ.stores.get scope).quads.length = ∑ p ∈ copies P L σ scope, storedQuads p.2 := by
  have hdisjoint : ∀ p ∈ copies P L σ scope, ∀ p' ∈ copies P L σ scope, p ≠ p' →
      Disjoint (encode P p.1 p.2).toFinset (encode P p'.1 p'.2).toFinset := by
    intro p hp p' hp' hne
    rw [Finset.disjoint_left]
    intro q hq hq'
    rw [List.mem_toFinset] at hq hq'
    have hid : p.1 = p'.1 := (owned_of_mem_encode hq).unique (owned_of_mem_encode hq')
    have hitem : p.2 = p'.2 := hσ.distinct (mem_copies.mp hp).1 (hid ▸ (mem_copies.mp hp').1)
    exact hne (Prod.ext hid hitem)
  rw [← List.toFinset_card_of_nodup (σ.stores.get scope).nodup, hσ.quads_eq, Finset.card_biUnion hdisjoint]
  exact Finset.sum_congr rfl fun p hp => card_encode (hσ.triples (mem_copies.mp hp).1)

/-! ## What a snapshot shows -/

theorem mem_snapshot_items {p : ItemId × ContextItem} :
    p ∈ (σ.snapshot scope).items ↔ σ.state.place p.1 = some (p.2, scope) := by
  simp only [Session.snapshot, List.mem_map, Prod.exists, State.mem_inScope, State.place_eq_some]
  constructor
  · rintro ⟨id, e, ⟨he, hscope⟩, rfl⟩
    exact ⟨e, he, rfl, hscope⟩
  · rintro ⟨e, he, hitem, hscope⟩
    exact ⟨p.1, e, ⟨he, hscope⟩, Prod.ext rfl hitem⟩

theorem snapshot_items_sorted (σ : Session) (scope : ContextScope) :
    (σ.snapshot scope).items.Pairwise fun a b => a.1 < b.1 :=
  List.pairwise_map.mpr (State.inScope_sorted σ.state scope)

open Classical in
/-- The store has, next to the items of the snapshot, the copies of items that are not live in the scope. -/
theorem Sound.snapshot_quadCount (hσ : Sound P L σ) (scope : ContextScope) : (σ.snapshot scope).quadCount =
    ((σ.snapshot scope).items.map fun p => storedQuads p.2).sum +
      ∑ p ∈ (copies P L σ scope).filter fun p => σ.state.place p.1 ≠ some (p.2, scope), storedQuads p.2 := by
  have hlive : (copies P L σ scope).filter (fun p => σ.state.place p.1 = some (p.2, scope)) =
      (σ.snapshot scope).items.toFinset := by
    ext p
    rw [Finset.mem_filter, mem_copies, List.mem_toFinset, mem_snapshot_items]
    exact ⟨And.right, fun hplace => ⟨⟨hσ.known hplace, hσ.home hplace⟩, hplace⟩⟩
  have hnodup : (σ.snapshot scope).items.Nodup :=
    (snapshot_items_sorted σ scope).imp fun hlt heq => hlt.ne (congrArg Prod.fst heq)
  have hsum := Finset.sum_filter_add_sum_filter_not (copies P L σ scope)
    (fun p => σ.state.place p.1 = some (p.2, scope)) fun p => storedQuads p.2
  rw [hlive, List.sum_toFinset _ hnodup] at hsum
  exact (hσ.quadCount_eq scope).trans hsum.symm

open Classical in
/-- What `snapshot` shows after any run, whatever transactions failed. It lists the live items of the scope, each as it
was passed to `add`, oldest first. The quad count is what these items take in storage, plus what is taken by the copies
that failed operations left behind; there are none of these if nothing failed. A snapshot changes nothing. -/
theorem snapshot_accounts (P : Platform) (cfg : Settings) (evs : List Event) (scope : ContextScope) (fates : List Fate)
    (elapsed : List Duration) :
    let w := World.start.run P cfg evs
    let issued := World.start.issued P cfg evs
    let left := (copies P issued w.session scope).filter fun p => w.session.state.place p.1 ≠ some (p.2, scope)
    ∃ r w', (snapshot scope).run.run { w with fates, elapsed } = (r, w') ∧ w'.session = w.session ∧
      (fates.head? = some .fail → r = .error (.err .storage)) ∧
      (fates.head? ≠ some .fail → ∃ snap, r = .ok snap ∧
        (snap.items.map (·.1)).Pairwise (· < ·) ∧
        (∀ id item, (id, item) ∈ snap.items ↔ w.session.state.scopeOf id = some scope ∧ (id, item) ∈ issued) ∧
        snap.quadCount = (snap.items.map fun p => storedQuads p.2).sum + ∑ p ∈ left, storedQuads p.2) ∧
      ((∀ ev ∈ evs, ev.Clean) → left = ∅) := by
  intro w issued left
  have hσ : Sound P issued w.session := sound_run P cfg evs
  refine ⟨_, _, run_snapshot .., rfl, fun hfail => if_pos hfail, fun hok => ⟨_, if_neg hok, ?_, fun id item => ?_,
    hσ.snapshot_quadCount scope⟩, fun hclean => ?_⟩
  · exact List.pairwise_map.mpr (snapshot_items_sorted w.session scope)
  · have hmem : (id, item) ∈ (w.session.snapshot scope).items ↔ w.session.state.place id = some (item, scope) :=
      mem_snapshot_items
    refine hmem.trans ?_
    rw [State.scopeOf_eq_place]
    constructor
    · intro hplace
      exact ⟨by rw [hplace]; rfl, hσ.known hplace⟩
    · rintro ⟨hscope, hissued⟩
      obtain ⟨⟨item', scope'⟩, hplace, rfl⟩ := Option.map_eq_some_iff.mp hscope
      rw [hplace, hσ.distinct (hσ.known hplace) hissued]
  · rw [Finset.filter_eq_empty_iff]
    intro p hp hleft
    obtain ⟨-, hholds⟩ := mem_copies.mp hp
    have hmeta := metadataQuad_mem_encode P p.1 p.2
    obtain ⟨item, hplace⟩ := settled_run P cfg hclean (hholds.mem hmeta) (owned_of_mem_encode hmeta)
    exact hleft (by rw [hplace, hσ.distinct (hσ.known hplace) (mem_copies.mp hp).1])

end Semanticore.Context
