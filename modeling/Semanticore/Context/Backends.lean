import Semanticore.Context.Coherence
import Semanticore.Context.Lemmas.Follows
import Semanticore.Oxigraph.Backend
import Semanticore.Testkit.Backend

/-!
# The Session over any backend

Over every backend that is a plain set of quads, the Session behaves as the model does for some way of its transactions
to end. What holds of all runs of the model holds of the Session over the backend.
-/

namespace Semanticore.Context.Generic
open Semanticore.Core Semanticore.Lib

variable {B : Storage} {Fit : Quad → Prop} (K : B.PlainSet Fit) (P : Platform) (cfg : Settings)

/-- What an operation is given comes from the constructors. -/
structure BuiltOp (op : Op) : Prop where
  items : ∀ item ∈ op.newItems, BuiltItem item
  pattern : ∀ q p, op = .query q → queryPattern q = .ok p → BuiltObject p.object

/-- No call of the event fails for a reason of the backend's own, and what it writes fits. -/
def Event.Unfailing (P : Platform) (Fit : Quad → Prop) (ev : Event) : Prop :=
  (∀ f ∈ ev.faults, f = false) ∧ ∀ item ∈ ev.op.newItems, FitItem P Fit item

theorem follows_exec {X : Prop} (op : Op) (hbuilt : BuiltOp op) (hX : X → ∀ item ∈ op.newItems, FitItem P Fit item) :
    (comparison K P X).Follows (op.exec P cfg) (exec P cfg op) fun _ => True := by
  cases op with
  | add scope item =>
      exact .map (follows_add K P cfg item (hbuilt.items item List.mem_cons_self) fun hx => hX hx item List.mem_cons_self)
  | addBatch scope items => exact .map ((follows_addBatch K P cfg items hbuilt.items hX).mono fun _ _ => trivial)
  | remove scope id => exact .map (follows_remove K P id)
  | query q => exact .map (follows_query K P cfg q fun p => hbuilt.pattern q p rfl)
  | promote ids source target => exact .map (follows_promote K P cfg ids source target)
  | evict scope criteria => exact .map (follows_evict K P cfg criteria)
  | reason scope => exact .exit
  | validateShapes data shapes => exact .exit
  | evaluateDatalog scope => exact .exit

/-- The same call, with ways for its transactions to end. -/
structure Matches (P : Platform) (Fit : Quad → Prop) (ev : Event) (ev' : Context.Event) : Prop where
  op : ev'.op = ev.op
  elapsed : ev'.elapsed = ev.elapsed
  clean : ev.Unfailing P Fit → ev'.Clean

variable {K P} in
theorem Agrees.perform {w : Context.World} {v : World B} (h : Agrees K P w v) (ev : Event) (hbuilt : BuiltOp ev.op) :
    ∃ ev', Matches P Fit ev ev' ∧ (w.perform P cfg ev').1 = (v.perform P cfg ev).1 ∧
      Agrees K P (w.step P cfg ev') (v.step P cfg ev) := by
  have hstart : Agrees K P { w with session := { w.session with log := [] }, elapsed := ev.elapsed }
      { v with faults := ev.faults, elapsed := ev.elapsed } := ⟨h.state, rfl, h.now, h.stores, h.fits⟩
  obtain ⟨fates, w', hagrees, hcalm, -, hrun⟩ :=
    follows_exec K P cfg ev.op hbuilt (X := ∀ item ∈ ev.op.newItems, FitItem P Fit item) id _ _ hstart
  have hperform : w.perform P cfg ⟨ev.op, fates, ev.elapsed⟩ = ((v.perform P cfg ev).1, { w' with fates := [] }) := by
    have hrest := hrun []
    rw [List.append_nil] at hrest
    exact hrest
  refine ⟨⟨ev.op, fates, ev.elapsed⟩, ⟨rfl, rfl, fun hev => (hcalm ⟨hev.2, hev.1⟩).2⟩, by rw [hperform], ?_⟩
  rw [Context.World.step, World.step, hperform]
  exact ⟨hagrees.state, hagrees.elapsed, hagrees.now, hagrees.stores, hagrees.fits⟩

/-! ## Runs -/

/-- What the events of a run of the model return, one after another. -/
def replies : Context.World → List Context.Event → List (Except Halt Reply)
  | _, [] => []
  | w, ev :: evs => (w.perform P cfg ev).1 :: replies (w.step P cfg ev) evs

namespace World

/-- A Session over new stores. -/
def fresh (stores : Tiers B.Store) : World B := { stores, state := .empty, faults := [], elapsed := [], now := 0 }

/-- The ids an event gave out, with the items passed for them: the batch was written if `next_id` moved. -/
def issuedBy (v : World B) (ev : Event) : List (ItemId × ContextItem) :=
  if (v.step P cfg ev).state.nextId = v.state.nextId then []
  else (idRange v.state.nextId ev.op.newItems.length).zip ev.op.newItems

/-- The ids a run gave out, with the item passed to `add` for each. -/
def issued : World B → List Event → List (ItemId × ContextItem)
  | _, [] => []
  | v, ev :: evs => v.issuedBy P cfg ev ++ issued (v.step P cfg ev) evs

end World

variable {K P} in
theorem agrees_fresh {stores : Tiers B.Store} (h : ∀ scope, K.holds (stores.get scope) ∅) :
    Agrees K P .start (.fresh stores) where
  state := rfl
  elapsed := rfl
  now := rfl
  stores scope := by
    rw [Context.World.start, Tiers.get_const]
    exact h scope
  fits id e he := by
    have hempty : (∅ : Index)[id]? = none := by simp
    cases hempty.symm.trans he

variable {K P} in
theorem Agrees.issuedBy {w : Context.World} {v : World B} (h : Agrees K P w v) {ev : Event} {ev' : Context.Event}
    (hmatch : Matches P Fit ev ev') (hstep : Agrees K P (w.step P cfg ev') (v.step P cfg ev)) :
    w.issuedBy P cfg ev' = v.issuedBy P cfg ev := by
  rw [Context.World.issuedBy, World.issuedBy, hstep.state, h.state, hmatch.op]

variable {K P} in
theorem Agrees.run {w : Context.World} {v : World B} (h : Agrees K P w v) {evs : List Event}
    (hbuilt : ∀ ev ∈ evs, BuiltOp ev.op) :
    ∃ evs', List.Forall₂ (Matches P Fit) evs evs' ∧ replies P cfg w evs' = (v.run P cfg evs).1 ∧
      w.issued P cfg evs' = v.issued P cfg evs ∧ Agrees K P (w.run P cfg evs') (v.run P cfg evs).2 := by
  induction evs generalizing w v with
  | nil => exact ⟨[], .nil, rfl, rfl, h⟩
  | cons ev evs ih =>
      obtain ⟨ev', hmatch, hreply, hagrees⟩ := h.perform cfg ev (hbuilt ev List.mem_cons_self)
      obtain ⟨evs', hmatches, hreplies, hissued, hagrees'⟩ := ih hagrees fun ev hev => hbuilt ev (List.mem_cons_of_mem _ hev)
      refine ⟨ev' :: evs', .cons hmatch hmatches, ?_, ?_, hagrees'⟩
      · rw [replies, hreply, hreplies]
        rfl
      · rw [Context.World.issued, hissued, h.issuedBy cfg hmatch hagrees]
        rfl

/-- Every run of the Session over a backend that is a plain set of quads is a run of the model: for some way of the
model's transactions to end, both return the same, call by call, and leave the same index and stores that stand for the
same sets. Calls that the backend does not fail of itself end like transactions that commit. -/
theorem backend_refines_model {w : Context.World} {v : World B} (h : Agrees K P w v) (evs : List Event)
    (hbuilt : ∀ ev ∈ evs, BuiltOp ev.op) :
    ∃ evs', List.Forall₂ (Matches P Fit) evs evs' ∧ replies P cfg w evs' = (v.run P cfg evs).1 ∧
      Agrees K P (w.run P cfg evs') (v.run P cfg evs).2 := by
  obtain ⟨evs', hmatches, hreplies, -, hagrees⟩ := h.run cfg hbuilt
  exact ⟨evs', hmatches, hreplies, hagrees⟩

theorem builtItem_note : BuiltItem note := fun _ hq => (List.not_mem_nil hq).elim

/-- Two adds over the reference store. The second one evicts the first item, which fails at its second call. -/
theorem backend_refines_model_memStore :
    let evs : List Event := [⟨.add .minor note, [], []⟩, ⟨.add .minor note, [false, false, false, false, true], [1]⟩]
    let v := (World.fresh (B := Testkit.memStorage) (.const ⟨0, ∅⟩)).run notePlatform (manual (some 1)) evs
    ∃ evs', List.Forall₂ (Matches notePlatform Quad.Built) evs evs' ∧
      replies notePlatform (manual (some 1)) .start evs' = v.1 ∧
      Agrees Testkit.memPlainSet notePlatform (Context.World.start.run notePlatform (manual (some 1)) evs') v.2 := by
  refine backend_refines_model Testkit.memPlainSet notePlatform (manual (some 1)) (agrees_fresh fun scope => ?_) _ ?_
  · cases scope <;> exact ⟨rfl, fun _ hq => absurd hq (Finset.notMem_empty _)⟩
  · intro ev hev
    rcases List.mem_pair.mp hev with rfl | rfl <;>
      exact ⟨fun item hitem => List.mem_singleton.mp hitem ▸ builtItem_note, fun _ _ h => by cases h⟩

/-! ## What a reader finds -/

/-- What the store lists to a new reader. -/
def Lists (s : B.Store) (quads : List Quad) : Prop :=
  ∃ tx, B.beginRead s = .ok tx ∧ B.quadsForPattern s tx none none none none = quads.map .ok

theorem exists_lists {s : B.Store} {S : Finset Quad} (h : K.holds s S) :
    ∃ quads, Lists s quads ∧ quads.Nodup ∧ ∀ q, q ∈ quads ↔ q ∈ S := by
  obtain ⟨tx, hbegin, htx⟩ := K.beginRead h
  have hread : ∃ qs : List Quad, B.quadsForPattern s tx none none none none = qs.map .ok ∧ qs.Nodup ∧
      ∀ q, q ∈ qs ↔ q ∈ S ∧ matchesPattern q none none none none := K.quadsForPattern (.inr htx) fun _ hl => by cases hl
  obtain ⟨quads, hquads, hnodup, hmem⟩ := hread
  refine ⟨quads, ⟨tx, hbegin, hquads⟩, hnodup, fun q => (hmem q).trans ?_⟩
  simp [matchesPattern]

variable {P} in
theorem clean_of_matches {evs : List Event} {evs' : List Context.Event} (h : List.Forall₂ (Matches P Fit) evs evs')
    (hunfailing : ∀ ev ∈ evs, ev.Unfailing P Fit) : ∀ ev' ∈ evs', ev'.Clean := by
  induction h with
  | nil => exact fun _ hev => (List.not_mem_nil hev).elim
  | cons hmatch _ ih =>
      obtain ⟨hev, hevs⟩ := List.forall_mem_cons.mp hunfailing
      exact List.forall_mem_cons.mpr ⟨hmatch.clean hev, ih hevs⟩

/-- Whatever calls fail in a run over new stores, a reader of any store finds each item whole or not at all, a live item
in the store of its scope, and no quad that belongs to no item. In a run without failures it finds the live items of the
scope and nothing else. -/
theorem backend_stores_whole {stores : Tiers B.Store} (hfresh : ∀ scope, K.holds (stores.get scope) ∅) (evs : List Event)
    (hbuilt : ∀ ev ∈ evs, BuiltOp ev.op) (scope : ContextScope) :
    let v := ((World.fresh stores).run P cfg evs).2
    let issued := (World.fresh stores).issued P cfg evs
    ∃ quads, Lists (v.stores.get scope) quads ∧ quads.Nodup ∧
      (∀ q ∈ quads, ∃ id item, (id, item) ∈ issued ∧ Owned id q) ∧
      (∀ id item, (id, item) ∈ issued →
        (∀ q, Owned id q → (q ∈ quads ↔ q ∈ encode P id item)) ∨ ∀ q ∈ quads, ¬ Owned id q) ∧
      (∀ id e, v.state.items[id]? = some e → (id, e.item) ∈ issued ∧
        (e.scope = scope → ∀ q ∈ encode P id e.item, q ∈ quads)) ∧
      ((∀ ev ∈ evs, ev.Unfailing P Fit) →
        ∀ q, q ∈ quads ↔ ∃ id e, v.state.items[id]? = some e ∧ e.scope = scope ∧ q ∈ encode P id e.item) := by
  intro v issued
  obtain ⟨evs', hmatches, -, hissued, hagrees⟩ := (agrees_fresh (P := P) hfresh).run cfg hbuilt
  have hsound : Sound P issued (Context.World.start.run P cfg evs').session := by
    have hrun := sound_run P cfg evs'
    rwa [hissued] at hrun
  obtain ⟨quads, hlists, hnodup, hset⟩ := exists_lists K (hagrees.stores scope)
  have hmem : ∀ q, q ∈ quads ↔ q ∈ (Context.World.start.run P cfg evs').session.stores.get scope :=
    fun q => (hset q).trans List.mem_toFinset
  have hlive : ∀ {id e}, v.state.items[id]? = some e →
      (Context.World.start.run P cfg evs').session.state.place id = some (e.item, e.scope) := by
    intro id e he
    refine State.place_of_live ?_
    rw [hagrees.state]
    exact he
  refine ⟨quads, hlists, hnodup, fun q hq => hsound.owned ((hmem q).mp hq), fun id item hid => ?_, fun id e he => ?_,
    fun hunfailing q => ?_⟩
  · refine (hsound.whole hid scope).imp (fun h q ho => (hmem q).trans (h q ho)) fun h q hq ho => ?_
    exact h q ho ((hmem q).mp hq)
  · refine ⟨hsound.known (hlive he), ?_⟩
    rintro rfl q hq
    exact (hmem q).mpr ((hsound.home (hlive he)).mem hq)
  · rw [hmem, hsound.mem_store (settled_run P cfg (clean_of_matches hmatches hunfailing))]
    constructor
    · rintro ⟨id, item, hplace, hq⟩
      obtain ⟨e, he, rfl, rfl⟩ := State.place_eq_some.mp hplace
      rw [hagrees.state] at he
      exact ⟨id, e, he, rfl, hq⟩
    · rintro ⟨id, e, he, rfl, hq⟩
      exact ⟨id, e.item, hlive he, hq⟩

/-- A note over two stores of the adapter on disk and one in memory. -/
theorem backend_stores_whole_oxigraph :
    let stores : Tiers (Oxigraph.NamedStore Oxigraph.integerBackend) :=
      ⟨Oxigraph.freshStore _ .onDisk, Oxigraph.freshStore _ .onDisk, Oxigraph.freshStore _ .inMemory⟩
    let B := Oxigraph.oxigraphStorage Oxigraph.integerBackend Oxigraph.integerBackend.everNamed
    let evs : List Event := [⟨.add .major note, [], []⟩]
    let v := ((World.fresh (B := B) stores).run notePlatform (manual none) evs).2
    let issued := (World.fresh (B := B) stores).issued notePlatform (manual none) evs
    ∃ quads, Lists (B := B) (v.stores.get .major) quads ∧ quads.Nodup ∧
      (∀ q ∈ quads, ∃ id item, (id, item) ∈ issued ∧ Owned id q) ∧
      (∀ id item, (id, item) ∈ issued →
        (∀ q, Owned id q → (q ∈ quads ↔ q ∈ encode notePlatform id item)) ∨ ∀ q ∈ quads, ¬ Owned id q) ∧
      (∀ id e, v.state.items[id]? = some e → (id, e.item) ∈ issued ∧
        (e.scope = .major → ∀ q ∈ encode notePlatform id e.item, q ∈ quads)) ∧
      ((∀ ev ∈ evs, ev.Unfailing notePlatform (Oxigraph.Accepted Oxigraph.integerBackend)) →
        ∀ q, q ∈ quads ↔ ∃ id e, v.state.items[id]? = some e ∧ e.scope = .major ∧ q ∈ encode notePlatform id e.item) := by
  refine backend_stores_whole (Oxigraph.oxigraphPlainSet _ _) notePlatform (manual none) (fun scope => ?_) _ ?_ .major
  · cases scope with
    | enduring => exact Oxigraph.holds_fresh _ _ (by decide)
    | major => exact Oxigraph.holds_fresh _ _ (by decide)
    | minor => exact Oxigraph.holds_fresh _ _ (by decide)
  · intro ev hev
    cases List.mem_singleton.mp hev
    exact ⟨fun item hitem => List.mem_singleton.mp hitem ▸ builtItem_note, fun _ _ h => by cases h⟩

end Semanticore.Context.Generic
