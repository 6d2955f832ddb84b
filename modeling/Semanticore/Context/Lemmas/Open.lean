import Semanticore.Context.Lemmas.Decode
import Semanticore.Context.Lemmas.Spec
import Semanticore.Context.Sound
import Semanticore.Lib.Except

/-!
# Opening a Session on stores that operations left

Each store holds whole copies only, so every record is found with its triples; of several copies the most durable
one is taken.
-/

namespace Semanticore.Context
open Semanticore.Core Semanticore.Lib

variable {P : Platform} {L : List (ItemId × ContextItem)} {σ : Session} {w : World} {s scope : ContextScope}
  {id : ItemId} {item : ContextItem} {e : Entry} {items : Index} {now : Instant}

/-- The records of the issued items can be read. -/
def Readable (P : Platform) (L : List (ItemId × ContextItem)) : Prop :=
  ∀ p ∈ L, P.recordFromStr (P.jsonToString (Record.ofItem p.2).document) = .ok (Record.ofItem p.2)

/-! ## Loading one store -/

theorem loadRecord_metadataQuad (P : Platform) (tx : Store) (id : ItemId) (item : ContextItem) :
    loadRecord P tx (metadataQuad P id item) =
      (decode P id (P.jsonToString (Record.ofItem item).document)
        (P.quadsForPattern tx none none none (some (.named (itemGraph id))))).map fun item' => (id, item') := by
  simp only [loadRecord, metadataQuad, parseItemGraph_itemGraph, Literal.newSimple]
  rfl

/-- A metadata quad that `load` meets, read back. -/
theorem Sound.loadRecord_ok (hσ : Sound P L σ) (hread : Readable P L) {q : Quad} (hq : q ∈ σ.stores.get s)
    (hmeta : q.graph = metaGraph) :
    ∃ id item item', (id, item) ∈ L ∧ Holds P σ s id item ∧ q = metadataQuad P id item ∧
      loadRecord P (σ.stores.get s) q = .ok (id, item') ∧ SameContent item' item := by
  obtain ⟨id, item, hL, ho⟩ := hσ.owned hq
  rcases hσ.whole hL s with hholds | hlacks
  · obtain rfl := eq_metadataQuad (hholds.of_mem hq ho) hmeta
    have hquads : ∀ q', q' ∈ P.quadsForPattern (σ.stores.get s) none none none (some (.named (itemGraph id))) ↔
        ∃ t ∈ item.payload.quads, inItemGraph id t = q' := by
      intro q'
      simp only [Platform.mem_quadsForPattern, matchesPattern, Option.all_none, Option.all_some, Bool.true_and,
        decide_eq_true_eq]
      constructor
      · rintro ⟨hq', hgraph⟩
        rcases mem_encode.mp (hholds.of_mem hq' (Or.inl hgraph)) with h | rfl
        · exact h
        · exact (metaGraph_ne_itemGraph id hgraph).elim
      · rintro ⟨t, ht, rfl⟩
        exact ⟨hholds.mem (mem_encode.mpr (Or.inl ⟨t, ht, rfl⟩)), rfl⟩
    refine ⟨id, item, _, hL, hholds, rfl, ?_, sameContent_decoded (hσ.triples hL) hquads⟩
    rw [loadRecord_metadataQuad, decode_ofItem _ (hread _ hL)]
    rfl
  · exact (hlacks q ho hq).elim

/-- `load` finds exactly the items the store has a copy of. -/
theorem Sound.load_ok (hσ : Sound P L σ) (hread : Readable P L) (s : ContextScope) :
    ∃ loaded, load P (σ.stores.get s) = .ok loaded ∧
      (∀ id item', (id, item') ∈ loaded → ∃ item, (id, item) ∈ L ∧ Holds P σ s id item ∧ SameContent item' item) ∧
      ∀ id item, (id, item) ∈ L → Holds P σ s id item → ∃ item', (id, item') ∈ loaded := by
  have hrecords : ∀ q ∈ P.quadsForPattern (σ.stores.get s) none (some recordPredicate) none (some metaGraph),
      q ∈ σ.stores.get s ∧ q.graph = metaGraph := by
    intro q hq
    simp only [Platform.mem_quadsForPattern, matchesPattern, Option.all_none, Option.all_some, Bool.true_and,
      Bool.and_true, Bool.and_eq_true, decide_eq_true_eq] at hq
    exact ⟨hq.1, hq.2.2⟩
  obtain ⟨loaded, hload⟩ := mapM_returns (f := loadRecord P (σ.stores.get s)).mpr fun q hq => by
    obtain ⟨id, item, item', -, -, -, hok, -⟩ := hσ.loadRecord_ok hread (hrecords q hq).1 (hrecords q hq).2
    exact ⟨(id, item'), hok⟩
  refine ⟨loaded, hload, fun id item' hloaded => ?_, fun id item hL hholds => ?_⟩
  · obtain ⟨q, hq, hok⟩ := (mem_mapM hload).mp hloaded
    obtain ⟨id₁, item, item₁, hL, hholds, -, hok₁, hsame⟩ :=
      hσ.loadRecord_ok hread (hrecords q hq).1 (hrecords q hq).2
    cases hok.symm.trans hok₁
    exact ⟨item, hL, hholds, hsame⟩
  · have hq := hholds.mem (metadataQuad_mem_encode P id item)
    obtain ⟨id₁, item₁, item', -, -, heq, hok, -⟩ := hσ.loadRecord_ok hread hq rfl
    have hsubject := congrArg Quad.subject heq
    simp only [metadataQuad, NamedOrBlankNode.named.injEq, itemGraph_inj] at hsubject
    subst hsubject
    refine ⟨item', (mem_mapM hload).mpr ⟨_, ?_, hok⟩⟩
    simpa [Platform.mem_quadsForPattern, matchesPattern, metadataQuad] using hq

/-! ## Merging -/

theorem getElem?_insertIfNew (m : Index) (id id' : ItemId) (e : Entry) : (m.insertIfNew id e)[id']? =
    match m[id']? with
    | some e' => some e'
    | none => if id = id' then some e else none := by
  simp only [Std.TreeMap.getElem?_insertIfNew, compare_eq_iff_eq, Std.TreeMap.mem_iff_isSome_getElem?]
  by_cases hid : id = id'
  · subst hid
    cases m[id]? <;> simp
  · cases m[id']? <;> simp [hid]

theorem getElem?_mergeLoaded (loaded : List (ItemId × ContextItem)) :
    (mergeLoaded now scope items loaded)[id]? = match items[id]? with
      | some e => some e
      | none => (loaded.find? (·.1 = id)).map fun p => Entry.new p.2 scope .added now := by
  unfold mergeLoaded
  induction loaded generalizing items with
  | nil =>
      rw [List.foldl_nil]
      cases items[id]? <;> rfl
  | cons p loaded ih =>
      rw [List.foldl_cons, ih, getElem?_insertIfNew]
      cases items[id]? with
      | some e => rfl
      | none =>
          by_cases hid : p.1 = id
          · simp [hid]
          · simp [hid]

theorem mergeLoaded_some {loaded : List (ItemId × ContextItem)}
    (h : (mergeLoaded now scope items loaded)[id]? = some e) :
    items[id]? = some e ∨ items[id]? = none ∧ ∃ item, (id, item) ∈ loaded ∧ e = Entry.new item scope .added now := by
  rw [getElem?_mergeLoaded] at h
  cases hitems : items[id]? with
  | some e' =>
      rw [hitems] at h
      exact Or.inl h
  | none =>
      rw [hitems] at h
      obtain ⟨p, hfind, rfl⟩ := Option.map_eq_some_iff.mp h
      have hid : p.1 = id := by simpa using List.find?_some hfind
      exact Or.inr ⟨rfl, p.2, hid ▸ List.mem_of_find?_eq_some hfind, rfl⟩

theorem mergeLoaded_of_some {loaded : List (ItemId × ContextItem)} (h : items[id]? = some e) :
    (mergeLoaded now scope items loaded)[id]? = some e := by
  rw [getElem?_mergeLoaded, h]

theorem mergeLoaded_of_mem {loaded : List (ItemId × ContextItem)} (h : (id, item) ∈ loaded) :
    ∃ e, (mergeLoaded now scope items loaded)[id]? = some e := by
  rw [getElem?_mergeLoaded]
  cases items[id]? with
  | some e => exact ⟨e, rfl⟩
  | none =>
      have hfind : (loaded.find? (·.1 = id)).isSome := by
        rw [List.find?_isSome]
        exact ⟨_, h, by simp⟩
      obtain ⟨p, hp⟩ := Option.isSome_iff_exists.mp hfind
      exact ⟨_, by rw [hp]; rfl⟩

/-! ## The next id -/

theorem le_of_getLast? {m : Index} {last : ItemId} (h : m.keys.getLast? = some last) (hid : m[id]? = some e) :
    id ≤ last := by
  obtain ⟨ids, hkeys⟩ := List.getLast?_eq_some_iff.mp h
  have hmem : id ∈ m.keys := Std.TreeMap.mem_keys.mpr (Std.TreeMap.mem_iff_isSome_getElem?.mpr (by simp [hid]))
  have hsorted : m.keys.Pairwise (· < ·) := Std.TreeMap.ordered_keys.imp fun h => compare_lt_iff_lt.mp h
  rw [hkeys] at hmem hsorted
  rcases List.mem_append.mp hmem with hin | hlast
  · exact ((List.pairwise_append.mp hsorted).2.2 id hin last (by simp)).le
  · rw [List.mem_singleton.mp hlast]

theorem lt_next_of_getLast? {m : Index} {last : ItemId} (h : m.keys.getLast? = some last)
    (hroom : last.n.toNat + 1 < 2 ^ 64) (hid : m[id]? = some e) : id.n.toNat < (last.n + UInt64.ofNat 1).toNat := by
  have hle : id.n.toNat ≤ last.n.toNat := not_lt.mp fun hlt => absurd (le_of_getLast? h hid) (not_le.mpr hlt)
  simp only [UInt64.toNat_add, UInt64.toNat_ofNat']
  omega

theorem getElem?_of_getLast?_eq_none {m : Index} (h : m.keys.getLast? = none) (id : ItemId) : m[id]? = none := by
  cases he : m[id]? with
  | none => rfl
  | some e =>
      have hmem : id ∈ m.keys := Std.TreeMap.mem_keys.mpr (Std.TreeMap.mem_iff_isSome_getElem?.mpr (by simp [he]))
      rw [List.getLast?_eq_none_iff.mp h] at hmem
      exact (List.not_mem_nil hmem).elim

/-- What `open` finds: each item some store has a copy of, in the most durable scope that has one. -/
structure Opened (P : Platform) (L : List (ItemId × ContextItem)) (σ : Session) (st : State) : Prop where
  found : ∀ {id : ItemId} {e : Entry}, st.items[id]? = some e → ∃ item, (id, item) ∈ L ∧ Holds P σ e.scope id item ∧
    SameContent e.item item ∧ ∀ s, e.scope < s → Lacks σ s id
  complete : ∀ {id item s}, (id, item) ∈ L → Holds P σ s id item → ∃ e : Entry, st.items[id]? = some e
  fresh : ∀ {id : ItemId} {e : Entry}, st.items[id]? = some e → id.n.toNat < st.nextId.toNat
  arrival : ∀ {id : ItemId} {e : Entry}, st.items[id]? = some e → ∃ now, e = Entry.new e.item e.scope .added now

/-- The index after the scopes not in `rest` were merged. -/
structure Merged (P : Platform) (L : List (ItemId × ContextItem)) (σ : Session) (rest : List ContextScope)
    (items : Index) : Prop where
  order : rest.Pairwise (· > ·)
  found : ∀ {id : ItemId} {e : Entry}, items[id]? = some e → ∃ item, (id, item) ∈ L ∧ Holds P σ e.scope id item ∧
    SameContent e.item item ∧ ∀ s, e.scope < s → Lacks σ s id
  complete : ∀ {id item s}, s ∉ rest → (id, item) ∈ L → Holds P σ s id item → ∃ e : Entry, items[id]? = some e
  arrival : ∀ {id : ItemId} {e : Entry}, items[id]? = some e → ∃ now, e = Entry.new e.item e.scope .added now

theorem Merged.next {rest : List ContextScope} {loaded : List (ItemId × ContextItem)} (hσ : Sound P L σ)
    (h : Merged P L σ (scope :: rest) items)
    (hfound : ∀ id item', (id, item') ∈ loaded →
      ∃ item, (id, item) ∈ L ∧ Holds P σ scope id item ∧ SameContent item' item)
    (hcomplete : ∀ id item, (id, item) ∈ L → Holds P σ scope id item → ∃ item', (id, item') ∈ loaded) :
    Merged P L σ rest (mergeLoaded now scope items loaded) := by
  obtain ⟨hwarmer, horder⟩ := List.pairwise_cons.mp h.order
  refine ⟨horder, fun {id e} he => ?_, fun {id item s} hs hL hholds => ?_, fun {id e} he => ?_⟩
  · rcases mergeLoaded_some he with he | ⟨hnone, item', hloaded, rfl⟩
    · exact h.found he
    · obtain ⟨item, hL, hholds, hsame⟩ := hfound id item' hloaded
      refine ⟨item, hL, hholds, hsame, fun s hlt => ?_⟩
      -- A copy in a more durable scope would have been merged before.
      rcases hσ.whole hL s with hwarm | hlacks
      · have hs : s ∉ scope :: rest := by
          rintro (_ | ⟨_, hmem⟩)
          · exact lt_irrefl _ hlt
          · exact lt_asymm hlt (hwarmer s ‹_›)
        obtain ⟨e', he'⟩ := h.complete hs hL hwarm
        cases hnone.symm.trans he'
      · exact hlacks
  · by_cases hscope : s = scope
    · subst hscope
      obtain ⟨item', hloaded⟩ := hcomplete id item hL hholds
      exact mergeLoaded_of_mem hloaded
    · obtain ⟨e, he⟩ := h.complete (by simp [hs, hscope]) hL hholds
      exact ⟨e, mergeLoaded_of_some he⟩
  · rcases mergeLoaded_some he with he | ⟨-, item', -, rfl⟩
    · exact h.arrival he
    · exact ⟨now, rfl⟩

/-- `open` on the stores of a sound Session whose records can be read. -/
theorem open_spec {persistent : Tiers Bool} (hσ : Sound P L σ) (hread : Readable P L) (hstores : w.session.stores = σ.stores)
    (hpersistent : persistent.enduring = true) :
    Runs Later (openSession P persistent) w
      (fun _ w' => w'.session.stores = σ.stores ∧ Opened P L σ w'.session.state)
      (Fails w (· = w.session)) := by
  unfold openSession
  simp only [hpersistent, Bool.true_eq_false, if_false]
  refine instantNow_spec.bind fun now w₁ hR₁ h₁ => ?_
  have hloop : Runs Later (ContextScope.all.foldlM (loadScope P now) ∅) w₁
      (fun items w' => Later w w' ∧ w'.session = w.session ∧ Merged P L σ [] items) (Fails w (· = w.session)) := by
    refine Runs.foldlM (I := fun rest items w' => Later w w' ∧ w'.session = w.session ∧ Merged P L σ rest items) ?_
      ⟨hR₁, h₁.1, ⟨by decide, ?_, ?_, ?_⟩⟩
    · rintro items scope rest w₂ ⟨hR₂, hw₂, hmerged⟩
      unfold loadScope
      refine (transaction_spec.mono (fun _ _ _ h => h) fun _ _ _ h => h.from hR₂ fun _ hτ => hτ.trans hw₂).bind
        fun _ w₃ hR₃ h₃ => ?_
      apply runs_getSession
      obtain ⟨loaded, hload, hfound, hcomplete⟩ := hσ.load_ok hread scope
      rw [h₃, hw₂, hstores, hload]
      exact Runs.ret ⟨Trans.trans hR₂ hR₃, h₃.trans hw₂, hmerged.next hσ hfound hcomplete⟩
    · intro id e he; simp at he
    · intro id item s hs; exact (hs (ContextScope.mem_all s)).elim
    · intro id e he; simp at he
  refine hloop.bind fun items w₂ hR₂ h₂ => ?_
  obtain ⟨hR, hw₂, hmerged⟩ := h₂
  have hnext : ∀ next : UInt64, (∀ (id : ItemId) (e : Entry), items[id]? = some e → id.n.toNat < next.toNat) →
      Opened P L σ { items, nextId := next, stats := .zero } := fun next hfresh =>
    ⟨hmerged.found, hmerged.complete (List.not_mem_nil), fun he => hfresh _ _ he, hmerged.arrival⟩
  cases hlast : items.keys.getLast? with
  | none =>
      refine Runs.update ⟨List.suffix_rfl, le_rfl⟩ ⟨?_, hnext 0 fun id e he => ?_⟩
      · exact (congrArg Session.stores hw₂).trans hstores
      · cases (getElem?_of_getLast?_eq_none hlast id).symm.trans he
  | some last =>
      have hmem : last ∈ items.keys := List.mem_of_getLast? hlast
      obtain ⟨e, he⟩ := Option.isSome_iff_exists.mp
        (Std.TreeMap.mem_iff_isSome_getElem?.mp (Std.TreeMap.mem_keys.mp hmem))
      obtain ⟨item, hL, -⟩ := hmerged.found he
      have hroom : last.n.toNat + 1 < 2 ^ 64 := by
        have := hσ.fresh hL
        have := σ.state.nextId.toNat_lt
        omega
      refine (checkedAdd_spec.mono (fun _ _ _ h => h) fun _ _ _ h => absurd hroom (not_lt.mpr h.2.2)).bind
        fun next w₃ _ h₃ => ?_
      obtain ⟨rfl, rfl, -⟩ := h₃
      refine Runs.update ⟨List.suffix_rfl, le_rfl⟩ ⟨?_, hnext _ fun id e he => lt_next_of_getLast? hlast hroom he⟩
      exact (congrArg Session.stores hw₂).trans hstores

/-! ## Opening arbitrary stores -/

theorem loadRecord_subject {tx : Store} {q : Quad} (h : loadRecord P tx q = .ok (id, item)) :
    q.subject = .named (itemGraph id) := by
  obtain ⟨subject, predicate, object, graph⟩ := q
  unfold loadRecord at h
  cases subject with
  | blank b => cases h
  | named n =>
      cases hid : parseItemGraph n with
      | none => simp only [hid] at h; cases h
      | some id' =>
          cases object with
          | literal lit =>
              simp only [hid] at h
              cases hdecode : decode P id' lit.value
                  (P.quadsForPattern tx none none none (some (.named (itemGraph id')))) with
              | error e => rw [hdecode] at h; cases h
              | ok item' =>
                  rw [hdecode] at h
                  cases h
                  rw [parseItemGraph_eq_some.mp hid]
          | _ => simp only [hid] at h; cases h

/-- An item is loaded from a quad of its own. -/
theorem load_owned {tx : Store} {loaded : List (ItemId × ContextItem)} (h : load P tx = .ok loaded)
    (hmem : (id, item) ∈ loaded) : ∃ q ∈ tx, Owned id q := by
  obtain ⟨q, hq, hok⟩ := (mem_mapM h).mp hmem
  simp only [Platform.mem_quadsForPattern, matchesPattern, Option.all_none, Option.all_some, Bool.true_and,
    Bool.and_true, Bool.and_eq_true, decide_eq_true_eq] at hq
  exact ⟨q, hq.1, Or.inr ⟨loadRecord_subject hok, hq.2⟩⟩

/-- `q` is the metadata quad of the item `id`. -/
def RecordOf (id : ItemId) (q : Quad) : Prop :=
  q.subject = .named (itemGraph id) ∧ q.predicate = recordPredicate ∧ q.graph = metaGraph

theorem RecordOf.owned {q : Quad} (h : RecordOf id q) : Owned id q := Or.inr h

/-- Every metadata quad is loaded. -/
theorem load_of_record {tx : Store} {loaded : List (ItemId × ContextItem)} (h : load P tx = .ok loaded) {q : Quad}
    (hq : q ∈ tx) (hrecord : RecordOf id q) : ∃ item, (id, item) ∈ loaded ∧ loadRecord P tx q = .ok (id, item) := by
  have hscan : q ∈ P.quadsForPattern tx none (some recordPredicate) none (some metaGraph) := by
    simp [matchesPattern, hq, hrecord.2.1, hrecord.2.2]
  obtain ⟨⟨id', item⟩, hok⟩ := mapM_returns.mp ⟨loaded, h⟩ q hscan
  have hmem : (id', item) ∈ loaded := (mem_mapM h).mpr ⟨q, hscan, hok⟩
  have hsubject := hrecord.1.symm.trans (loadRecord_subject hok)
  cases itemGraph_injective (NamedOrBlankNode.named.inj hsubject)
  exact ⟨item, hmem, hok⟩

end Semanticore.Context
