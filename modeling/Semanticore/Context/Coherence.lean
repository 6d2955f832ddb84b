import Semanticore.Context.Lemmas.Runs

/-!
# Index and stores agree

Without storage failures the stores hold the live items and nothing else; whatever fails, no store holds part of an
item and every live item has its copy.
-/

namespace Semanticore.Context
open Semanticore.Core

variable {P : Platform} {L : List (ItemId × ContextItem)} {σ : Session} {id : ItemId} {item : ContextItem} {s : ContextScope}

/-! ## Without failures -/

theorem Sound.mem_store (hσ : Sound P L σ) (hsettled : Settled σ) {q : Quad} : q ∈ σ.stores.get s ↔
    ∃ id item, σ.state.place id = some (item, s) ∧ q ∈ encode P id item := by
  constructor
  · intro hq
    obtain ⟨id, -, -, ho⟩ := hσ.owned hq
    obtain ⟨item, hplace⟩ := hsettled hq ho
    exact ⟨id, item, hplace, (hσ.home hplace).of_mem hq ho⟩
  · rintro ⟨id, item, hplace, henc⟩
    exact (hσ.home hplace).mem henc

/-- In a run whose transactions all commit, the store of a scope holds exactly the images of the live items of the
scope, each the item passed to `add` for its id, and the images of different ids share no quad. -/
theorem stores_are_images (P : Platform) (cfg : Settings) (evs : List Event) (hclean : ∀ ev ∈ evs, ev.Clean) :
    let w := World.start.run P cfg evs
    let issued := World.start.issued P cfg evs
    (∀ s q, q ∈ w.session.stores.get s ↔
      ∃ id e, w.session.state.items[id]? = some e ∧ e.scope = s ∧
        ∃ item, (id, item) ∈ issued ∧ q ∈ encode P id item) ∧
    (∀ id e, w.session.state.items[id]? = some e → ∀ item, (id, item) ∈ issued ↔ item = e.item) ∧
    ∀ id id' item item' q, q ∈ encode P id item → q ∈ encode P id' item' → id = id' := by
  intro w issued
  have hσ : Sound P issued w.session := sound_run P cfg evs
  have hsettled : Settled w.session := settled_run P cfg hclean
  have hitem : ∀ id e, w.session.state.items[id]? = some e → ∀ item, (id, item) ∈ issued ↔ item = e.item := by
    intro id e he item
    have hknown := hσ.known (State.place_of_live he)
    exact ⟨fun h => hσ.distinct h hknown, fun h => h ▸ hknown⟩
  refine ⟨fun s q => ?_, hitem, fun id id' item item' q hq hq' => ?_⟩
  · rw [hσ.mem_store hsettled]
    constructor
    · rintro ⟨id, item, hplace, henc⟩
      obtain ⟨e, he, rfl, rfl⟩ := State.place_eq_some.mp hplace
      exact ⟨id, e, he, rfl, e.item, (hitem id e he _).mpr rfl, henc⟩
    · rintro ⟨id, e, he, rfl, item, hissued, henc⟩
      cases (hitem id e he item).mp hissued
      exact ⟨id, e.item, State.place_of_live he, henc⟩
  · exact (owned_of_mem_encode hq).unique (owned_of_mem_encode hq')

/-- A chunk whose source mentions an item graph. -/
def note : ContextItem :=
  { payload := .chunk "note" "text/plain", provenance := ⟨"urn:semanticore:context:item:0", []⟩, scopeHint := none,
    embedding := none }

/-- `serde_json` on the record of `note`. -/
def notePlatform : Platform := .ofRecord (.ofItem note)
  ("\x7b\"payload\":\x7b\"type\":\"chunk\",\"content\":\"note\",\"content_type\":\"text/plain\"\x7d," ++
    "\"source\":\"urn:semanticore:context:item:0\",\"derived_from\":[],\"scope_hint\":null,\"embedding\":null\x7d")

def manual (minorBound : Option Nat) : Settings :=
  { bounds := ⟨none, none, minorBound⟩, evictionPolicy := .lru, demotionTarget := .oneStepThenDrop,
    promotion := { PromotionConfig.default with cadence := .never } }

/-- Two adds and a batch of two against a bound of one: three items are evicted and the last one is stored. -/
theorem stores_are_images_full_tier :
    let evs : List Event := [⟨.add .minor note, [], []⟩, ⟨.addBatch .minor [note, note], [], [1]⟩,
      ⟨.remove .minor ⟨0⟩, [], []⟩, ⟨.add .minor note, [.commit], []⟩]
    let w := World.start.run notePlatform (manual (some 1)) evs
    w.session.state.items.keys = [⟨3⟩] ∧
      ∀ s q, q ∈ w.session.stores.get s ↔
        ∃ id e, w.session.state.items[id]? = some e ∧ e.scope = s ∧
          ∃ item, (id, item) ∈ World.start.issued notePlatform (manual (some 1)) evs ∧
            q ∈ encode notePlatform id item :=
  ⟨by decide +kernel, (stores_are_images notePlatform (manual (some 1)) _ (by simp [Event.Clean])).1⟩

/-! ## Whatever fails -/

/-- After every operation of every run, whether it failed or not: a live item has its copy in the store of its
scope, any other store holds the same copy or nothing of it, and its content is what was passed to `add`. No store
holds part of any item, and the metadata quads of one id are the same in all stores. -/
theorem items_stored_whole (P : Platform) (cfg : Settings) (evs : List Event) :
    let w := World.start.run P cfg evs
    let issued := World.start.issued P cfg evs
    (∀ id e, w.session.state.items[id]? = some e →
      Holds P w.session e.scope id e.item ∧ (∀ s, Holds P w.session s id e.item ∨ Lacks w.session s id) ∧
        ∀ item, (id, item) ∈ issued ↔ item = e.item) ∧
    (∀ s id, (∃ item, (id, item) ∈ issued ∧ Holds P w.session s id item) ∨ Lacks w.session s id) ∧
    ∀ s s' id q q', q ∈ w.session.stores.get s → q' ∈ w.session.stores.get s' → Owned id q → Owned id q' →
      q.graph = metaGraph → q'.graph = metaGraph → q = q' := by
  intro w issued
  have hσ : Sound P issued w.session := sound_run P cfg evs
  have hcopy : ∀ s id, (∃ item, (id, item) ∈ issued ∧ Holds P w.session s id item) ∨ Lacks w.session s id := by
    intro s id
    by_cases hissued : ∃ item, (id, item) ∈ issued
    · obtain ⟨item, hissued⟩ := hissued
      exact (hσ.whole hissued s).imp (fun h => ⟨item, hissued, h⟩) fun h => h
    · refine Or.inr fun q ho hq => ?_
      obtain ⟨id', item, hmem, ho'⟩ := hσ.owned hq
      exact hissued ⟨item, ho'.unique ho ▸ hmem⟩
  refine ⟨fun id e he => ?_, hcopy, fun s s' id q q' hq hq' ho ho' hmeta hmeta' => ?_⟩
  · have hplace := State.place_of_live he
    have hknown := hσ.known hplace
    exact ⟨hσ.home hplace, hσ.whole hknown, fun item => ⟨fun h => hσ.distinct h hknown, fun h => h ▸ hknown⟩⟩
  · rcases hcopy s id with ⟨item, hissued, hholds⟩ | hlacks
    · rcases hcopy s' id with ⟨item', hissued', hholds'⟩ | hlacks'
      · cases hσ.distinct hissued hissued'
        exact (eq_metadataQuad (hholds.of_mem hq ho) hmeta).trans
          (eq_metadataQuad (hholds'.of_mem hq' ho') hmeta').symm
      · exact (hlacks' q' ho' hq').elim
    · exact (hlacks q ho hq).elim

end Semanticore.Context
