import Semanticore.Context.Coherence
import Semanticore.Context.Lemmas.Cut
import Semanticore.Context.Lemmas.Opening

/-!
# Is a removal final

`remove` and `evict` delete an item from the store that the index names. A move that a failing transaction or a crash
interrupted may have left a copy in another store; `open` finds it there.
-/

namespace Semanticore.Context
open Semanticore.Core Semanticore.Lib

variable {P : Platform} {cfg : Settings} {L : List (ItemId × ContextItem)} {σ τ : Session} {w w' : World} {ev : Event}
  {id : ItemId} {s : ContextScope}

/-- The item is not live and no store has a quad of it. -/
def Gone (σ : Session) (id : ItemId) : Prop := σ.state.items[id]? = none ∧ ∀ s, Lacks σ s id

/-! ## What is gone stays gone -/

/-- The effect on another item. -/
theorem Gone.act (hgone : Gone σ id) (h : Act P cfg σ τ) : Gone τ id := by
  have hother : ∀ {id' : ItemId} {e : Entry}, σ.state.items[id']? = some e → id' ≠ id := by
    rintro id' e he rfl
    cases hgone.1.symm.trans he
  cases h with
  | @moved id' e target arrival he hne =>
      refine ⟨Session.items_moved.trans ((if_neg (hother he)).trans hgone.1), fun s q ho hq => ?_⟩
      rcases (Session.mem_moved.mp hq).1 with hq | ⟨-, henc⟩
      · exact hgone.2 s q ho hq
      · exact hother he ((owned_of_mem_encode henc).unique ho)
  | @dropped id' e he =>
      refine ⟨Session.items_dropped.trans ((if_neg (hother he)).trans hgone.1), fun s q ho hq => ?_⟩
      exact hgone.2 s q ho (Session.mem_dropped.mp hq).1
  | @removed id' e he =>
      refine ⟨Session.items_removed.trans ((if_neg (hother he)).trans hgone.1), fun s q ho hq => ?_⟩
      exact hgone.2 s q ho (Session.mem_removed.mp hq).1
  | counted promoted demoted => exact hgone
  | selected now scope count => exact hgone

theorem Gone.halfMove (hgone : Gone σ id) (h : HalfMove P σ τ) : Gone τ id := by
  obtain ⟨id', e, target, he, hne, rfl⟩ := h
  refine ⟨hgone.1, fun s q ho hq => ?_⟩
  rcases Session.mem_copied.mp hq with hq | ⟨-, henc⟩
  · exact hgone.2 s q ho hq
  · have hid : id' = id := (owned_of_mem_encode henc).unique ho
    cases (hid ▸ hgone.1).symm.trans he

theorem Gone.ends (hgone : Gone σ id) (h : Ends P cfg σ τ) : Gone τ id :=
  h.keeps (I := fun σ => Gone σ id) (fun hact h => h.act hact) (fun hhalf h => h.halfMove hhalf) hgone

theorem Gone.begins {t t' : Instant} (hgone : Gone w.session id)
    (hbegin : Begins P cfg t t' ev.op (w.prepare ev).session τ) (hends : Ends P cfg τ (w.step P cfg ev).session)
    (hid : id ∉ (w.issuedBy P cfg ev).map Prod.fst) : Gone τ id := by
  rcases issuedBy_of_begins hbegin hends with ⟨scope, items, now, -, hadm, rfl, hissued⟩ | ⟨hsame, -⟩
  · rw [hissued] at hid
    refine ⟨(Session.items_added_of_not_mem hadm.room hid).trans hgone.1, fun s q ho hq => ?_⟩
    rcases Session.mem_added.mp hq with hq | ⟨-, p, hp, henc⟩
    · exact hgone.2 s q ho hq
    · exact hid ((owned_of_mem_encode henc).unique ho ▸ List.mem_map_of_mem hp)
  · refine ⟨?_, fun s q ho hq => hgone.2 s q ho (hsame.stores ▸ hq)⟩
    have hplace := hsame.place id
    simpa [State.place, World.prepare, hgone.1] using hplace

theorem Gone.step (hgone : Gone w.session id) (hid : id ∉ (w.issuedBy P cfg ev).map Prod.fst) :
    Gone (w.step P cfg ev).session id := by
  obtain ⟨τ, hbegin, hends, -⟩ := step_spec P cfg w ev
  exact (hgone.begins hbegin hends hid).ends hends

theorem lacks_crash (hgone : Gone w.session id) (hid : id ∉ (w.issuedBy P cfg ev).map Prod.fst) (k : Nat)
    (s : ContextScope) : Lacks (w.crash P cfg ev k).session s id := by
  obtain ⟨τ, hbegin, hends, -⟩ := step_spec P cfg w ev
  obtain ⟨marks, hmarks⟩ := hends.commits
  obtain ⟨ρ, hρ, hstores⟩ := crash_stores hbegin hmarks hends k
  have hgone' : Gone ρ id := by
    rcases hρ with rfl | hends'
    · exact hgone
    · exact (hgone.begins hbegin hends hid).ends hends'
  exact (hgone'.2 s).congr fun q _ => by rw [hstores]

/-- `open` finds no item that no store has a quad of. -/
theorem gone_reopen {fates : List Fate} {elapsed : List Duration} (hlacks : ∀ s, Lacks w.session s id)
    (hopen : w.reopen P fates elapsed = (.ok (), w')) : Gone w'.session id := by
  have hfound := ((open_found (P := P) (w := { w.close with fates, elapsed })).ok hopen).2
  refine ⟨?_, fun s => (hlacks s).congr fun q _ => by rw [hfound.same, w.close_stores]⟩
  cases he : w'.session.state.items[id]? with
  | none => rfl
  | some e =>
      obtain ⟨s, q, hq, ho⟩ := hfound.owned id e he
      exact (hlacks s q ho hq).elim

/-- Through calls, crashes and reopening, an item that is gone stays gone until its id is given to a new one. -/
theorem Life.gone (h : Life P w L w') (hgone : Gone w.session id) (hid : id ∉ L.map Prod.fst) :
    Gone w'.session id := by
  induction h with
  | here => exact hgone
  | call cfg ev h ih =>
      rw [List.map_append, List.mem_append, not_or] at hid
      exact (ih hid.1).step hid.2
  | crash cfg ev k fates elapsed h hopen ih =>
      rw [List.map_append, List.mem_append, not_or] at hid
      exact gone_reopen (lacks_crash (ih hid.1) hid.2 k) hopen
  | close fates elapsed h hopen ih => exact gone_reopen (ih hid).2 hopen

/-! ## Removals -/

/-- A call that returned and says that the item is out: `remove` with `Ok(true)`, or an eviction that lists it. -/
inductive Removes (P : Platform) (cfg : Settings) (w : World) : Event → ItemId → Prop
  | remove {ev : Event} {scope : ContextScope} {id : ItemId} (hop : ev.op = .remove scope id)
      (hret : (w.perform P cfg ev).1 = .ok (.removed true)) : Removes P cfg w ev id
  | evict {ev : Event} {scope : ContextScope} {ids : List ItemId} {id : ItemId} {n : Nat}
      (hop : ev.op = .evict scope (.items ids)) (hid : id ∈ ids) (hret : (w.perform P cfg ev).1 = .ok (.evicted n)) :
      Removes P cfg w ev id

/-- The item is out of the index, and its quads are out of the store the index named. -/
structure TakenOut (id : ItemId) (σ τ : Session) : Prop where
  index : τ.state.items[id]? = none
  stores : ∀ s q, Owned id q → (q ∈ τ.stores.get s ↔ q ∈ σ.stores.get s ∧ σ.state.scopeOf id ≠ some s)

theorem takenOut_removed {scope : ContextScope} (hscope : σ.state.scopeOf id = some scope) :
    TakenOut id σ (σ.removed P id scope) := by
  refine ⟨Session.items_removed.trans (if_pos rfl), fun s q ho => ?_⟩
  rw [Session.mem_removed, hscope]
  simp [ho, eq_comm]

theorem Session.mem_dropItems {ids : List ItemId} (h : Droppable ids σ) {q : Quad} :
    q ∈ (σ.dropItems P ids).stores.get s ↔
      q ∈ σ.stores.get s ∧ ∀ id ∈ ids, σ.state.scopeOf id = some s → ¬ Owned id q := by
  induction ids generalizing σ with
  | nil => simp [Session.dropItems]
  | cons a ids ih =>
      obtain ⟨ha, hids⟩ := List.nodup_cons.mp h.1
      obtain ⟨e, he⟩ := h.2 a (by simp)
      have hsame : ∀ id ∈ ids, (σ.dropItem P a).state.items[id]? = σ.state.items[id]? := fun id hid =>
        Session.items_dropItem_ne fun heq => ha (heq ▸ hid)
      have hrest : Droppable ids (σ.dropItem P a) :=
        ⟨hids, fun id hid => hsame id hid ▸ h.2 id (by simp [hid])⟩
      have hscopes : ∀ id ∈ ids, (σ.dropItem P a).state.scopeOf id = σ.state.scopeOf id := fun id hid => by
        unfold State.scopeOf
        rw [hsame id hid]
      have hhead : σ.state.scopeOf a = some e.scope := State.scopeOf_eq_some.mpr ⟨e, he, rfl⟩
      show q ∈ ((σ.dropItem P a).dropItems P ids).stores.get s ↔ _
      rw [ih hrest, Session.dropItem_of_live he, Session.mem_dropped, ← Session.dropItem_of_live (P := P) he,
        List.forall_mem_cons, hhead, and_assoc]
      refine and_congr_right fun _ => and_congr ?_ ?_
      · simp [not_and, eq_comm]
      · exact forall₂_congr fun id hid => by rw [hscopes id hid]

theorem takenOut_dropItems {ids : List ItemId} (h : Droppable ids σ) (hid : id ∈ ids) :
    TakenOut id σ (σ.dropItems P ids) := by
  refine ⟨(Session.items_dropItems h.1).trans (if_pos hid), fun s q ho => ?_⟩
  rw [Session.mem_dropItems h]
  refine and_congr_right fun _ => ⟨fun hall hscope => hall id hid hscope ho, fun hne id' _ hscope ho' => ?_⟩
  exact hne (ho'.unique ho ▸ hscope)

theorem Removes.takenOut (h : Removes P cfg w ev id) : TakenOut id w.session (w.step P cfg ev).session := by
  have hprep : ∀ {τ}, TakenOut id (w.prepare ev).session τ → TakenOut id w.session τ := fun h => ⟨h.1, h.2⟩
  cases h with
  | remove hop hret =>
      have hspec := perform_map (f := Reply.removed) (E := Halts P cfg ev.op (w.prepare ev))
        (fun _ _ h => Reply.removed.inj h) (by rw [hop]; rfl) remove_spec hret
      obtain ⟨hscope, hsession⟩ := hspec
      exact hprep (hsession ▸ takenOut_removed hscope)
  | evict hop hid hret =>
      have hspec := perform_map (f := Reply.evicted) (E := Halts P cfg ev.op (w.prepare ev))
        (fun _ _ h => Reply.evicted.inj h) (by rw [hop]; rfl) evict_spec hret
      obtain ⟨-, hscopes, hsession⟩ := hspec.1
      exact hprep (hsession ▸ takenOut_dropItems (droppable_of_scopeOf hscopes) (List.mem_eraseDups.mpr hid))

/-- After `remove` returned `Ok(true)`, or an eviction that lists the item returned `Ok`, the item is gone from the
index and from all stores, and stays gone through whatever calls, failures, crashes and reopening follow, until its id
is given to a new item, if and only if only the store the index named had quads of it. -/
theorem removal_final_iff (P : Platform) (cfg : Settings) (w : World) (ev : Event) (id : ItemId)
    (h : Removes P cfg w ev id) :
    (∀ L w', Life P (w.step P cfg ev) L w' → id ∉ L.map Prod.fst → Gone w'.session id) ↔
      ∀ s, w.session.state.scopeOf id ≠ some s → Lacks w.session s id := by
  have hout := h.takenOut
  constructor
  · intro hfinal s hs q ho hq
    exact (hfinal [] _ .here List.not_mem_nil).2 s q ho ((hout.stores s q ho).mpr ⟨hq, hs⟩)
  · intro honly L w' hlife hid
    refine hlife.gone ⟨hout.index, fun s q ho hq => ?_⟩ hid
    obtain ⟨hq, hs⟩ := (hout.stores s q ho).mp hq
    exact honly s hs q ho hq

/-- Without failures only the store the index names has quads of an item. -/
theorem Settled.lacks (hsettled : Settled σ) (hs : σ.state.scopeOf id ≠ some s) : Lacks σ s id := by
  intro q ho hq
  obtain ⟨item, hplace⟩ := hsettled hq ho
  exact hs (by rw [State.scopeOf_eq_place, hplace]; rfl)

/-- A note removed in a run without failures is gone for good. -/
theorem removal_final_iff_clean :
    let w := World.start.run notePlatform (manual none) [⟨.add .major note, [], []⟩]
    ∀ L w', Life notePlatform (w.step notePlatform (manual none) ⟨.remove .major ⟨0⟩, [], []⟩) L w' →
      ⟨0⟩ ∉ L.map Prod.fst → Gone w'.session ⟨0⟩ := by
  intro w
  refine (removal_final_iff notePlatform (manual none) w _ ⟨0⟩ (.remove rfl rfl)).mpr fun s hs => ?_
  exact (settled_run notePlatform (manual none) (by simp [Event.Clean])).lacks hs

/-- A promotion fails at its second transaction and leaves a copy in the enduring store; `remove` returns `Ok(true)`;
`open` brings the item back. -/
theorem removed_item_returns :
    let w₁ := World.start.run notePlatform (manual none) [⟨.add .major note, [], []⟩]
    let promotion : Event := ⟨.promote [⟨0⟩] .major .enduring, [.commit, .fail], []⟩
    let w₂ := w₁.step notePlatform (manual none) promotion
    let removal : Event := ⟨.remove .major ⟨0⟩, [], []⟩
    let w₃ := w₂.step notePlatform (manual none) removal
    (w₁.perform notePlatform (manual none) promotion).1 = .error (.err .storage) ∧
      (w₂.perform notePlatform (manual none) removal).1 = .ok (.removed true) ∧
      metadataQuad notePlatform ⟨0⟩ note ∈ w₃.session.stores.get .enduring ∧
      (w₃.reopen notePlatform [] []).1 = .ok () ∧
      (w₃.reopen notePlatform [] []).2.session.state.scopeOf ⟨0⟩ = some .enduring := by
  refine ⟨rfl, rfl, ?_, ?_, ?_⟩
  · decide +kernel
  · decide +kernel
  · decide +kernel

end Semanticore.Context
