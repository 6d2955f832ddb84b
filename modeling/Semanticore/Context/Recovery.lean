import Semanticore.Context.Coherence
import Semanticore.Context.Lemmas.Cut
import Semanticore.Context.Lemmas.Open

/-!
# Opening a Session again
-/

namespace Semanticore.Context
open Semanticore.Core Semanticore.Lib

variable {P : Platform} {L : List (ItemId × ContextItem)} {σ : Session} {st : State} {id : ItemId}
  {item : ContextItem} {s : ContextScope}

theorem reopen_spec {w : World} (hσ : Sound P L σ) (hread : Readable P L) (hstores : w.session.stores = σ.stores)
    (elapsed : List Duration) : (w.reopen P [] elapsed).1 = .ok () ∧
      (w.reopen P [] elapsed).2.session.stores = σ.stores ∧ Opened P L σ (w.reopen P [] elapsed).2.session.state := by
  have hspec : Runs Later (openSession P (.const true)) { w.close with fates := [], elapsed }
      (fun _ w' => w'.session.stores = σ.stores ∧ Opened P L σ w'.session.state) fun _ _ => False :=
    (open_spec (w := { w.close with fates := [], elapsed }) hσ hread hstores rfl).mono (fun _ _ _ h => h) fun _ _ _ h =>
      h.unclean fun f hf => absurd hf List.not_mem_nil
  obtain ⟨u, w', hrun, -, hopened⟩ := hspec.returns
  unfold World.reopen
  rw [hrun]
  exact ⟨rfl, hopened⟩

/-- Without stale copies, an item is found where it was. -/
theorem Opened.scopeOf (h : Opened P L σ st) (hσ : Sound P L σ) (hsettled : Settled σ) (id : ItemId) :
    st.scopeOf id = σ.state.scopeOf id := by
  have hback : ∀ s, st.scopeOf id = some s → σ.state.scopeOf id = some s := by
    intro s hs
    obtain ⟨e, he, rfl⟩ := State.scopeOf_eq_some.mp hs
    obtain ⟨item, -, hholds, -⟩ := h.found he
    obtain ⟨item', hplace⟩ := hsettled (hholds.mem (metadataQuad_mem_encode P id item))
      (owned_of_mem_encode (metadataQuad_mem_encode P id item))
    rw [State.scopeOf_eq_place, hplace]
    rfl
  cases hscope : σ.state.scopeOf id with
  | some s =>
      obtain ⟨e, he, rfl⟩ := State.scopeOf_eq_some.mp hscope
      have hplace := State.place_of_live he
      obtain ⟨e', he'⟩ := h.complete (hσ.known hplace) (hσ.home hplace)
      have hs : st.scopeOf id = some e'.scope := State.scopeOf_eq_some.mpr ⟨e', he', rfl⟩
      rw [hs, ← hback _ hs, hscope]
  | none =>
      cases hs : st.scopeOf id with
      | none => rfl
      | some s => exact absurd ((hback s hs).symm.trans hscope) (Option.some_ne_none s)

/-- Closing and opening again on the stores a run leaves gives the same live ids in the same scopes with the same
content, and no id issued later is one of them. -/
theorem reopen_same_content (P : Platform) (cfg : Settings) (evs : List Event) (elapsed : List Duration)
    (hclean : ∀ ev ∈ evs, ev.Clean)
    (hread : Readable P (World.start.issued P cfg evs)) :
    let w := World.start.run P cfg evs
    let w' := (w.reopen P [] elapsed).2
    (w.reopen P [] elapsed).1 = .ok () ∧
      (∀ id, w'.session.state.scopeOf id = w.session.state.scopeOf id) ∧
      (∀ (id : ItemId) (e e' : Entry), w.session.state.items[id]? = some e → w'.session.state.items[id]? = some e' →
        SameContent e'.item e.item) ∧
      ∀ cfg' evs', ∀ p ∈ w'.issued P cfg' evs', w'.session.state.items[p.1]? = none := by
  intro w w'
  have hσ : Sound P (World.start.issued P cfg evs) w.session := sound_run P cfg evs
  have hsettled : Settled w.session := settled_run P cfg hclean
  obtain ⟨hok, -, hopened⟩ := reopen_spec hσ hread rfl elapsed
  refine ⟨hok, hopened.scopeOf hσ hsettled, fun id e e' he he' => ?_, fun cfg' evs' p hp => ?_⟩
  · obtain ⟨item, hL, -, hsame, -⟩ := hopened.found he'
    exact hσ.distinct hL (hσ.known (State.place_of_live he)) ▸ hsame
  · have hge := issued_ge P cfg' w' evs' p hp
    cases he : w'.session.state.items[p.1]? with
    | none => rfl
    | some e => exact absurd (hopened.fresh he) (not_lt.mpr hge)

theorem readable_of_notes {L : List (ItemId × ContextItem)} (h : ∀ p ∈ L, p.2 = note) : Readable notePlatform L := by
  intro p hp
  rw [h p hp]
  exact Platform.ofRecord_reads ..

/-- Of three notes one was removed and one promoted; the other two are there again. -/
theorem reopen_same_content_two_tiers :
    let evs : List Event := [⟨.addBatch .minor [note, note, note], [], [2]⟩, ⟨.remove .minor ⟨1⟩, [.commit], []⟩,
      ⟨.promote [⟨2⟩] .minor .enduring, [], []⟩]
    let w := World.start.run notePlatform (manual (some 3)) evs
    (w.reopen notePlatform [] [5]).1 = .ok () ∧
      (w.reopen notePlatform [] [5]).2.session.state.scopeOf ⟨0⟩ = some .minor ∧
      (w.reopen notePlatform [] [5]).2.session.state.scopeOf ⟨1⟩ = none ∧
      (w.reopen notePlatform [] [5]).2.session.state.scopeOf ⟨2⟩ = some .enduring := by
  intro evs w
  have hissued : World.start.issued notePlatform (manual (some 3)) evs = [(⟨0⟩, note), (⟨1⟩, note), (⟨2⟩, note)] := rfl
  have hread : Readable notePlatform (World.start.issued notePlatform (manual (some 3)) evs) :=
    readable_of_notes (by simp [hissued])
  obtain ⟨hok, hscope, -⟩ := reopen_same_content notePlatform (manual (some 3)) evs [5] (by simp [evs, Event.Clean]) hread
  refine ⟨hok, ?_, ?_, ?_⟩
  · rw [hscope]; decide +kernel
  · rw [hscope]; decide +kernel
  · rw [hscope]; decide +kernel

/-! ## After a crash -/

section
variable {cfg : Settings} {w : World} {ev : Event} {τ ρ : Session}

/-- An event finds the item live in the scope, or adds it there. -/
def World.Involves (P : Platform) (cfg : Settings) (w : World) (ev : Event) (id : ItemId) (item : ContextItem)
    (scope : ContextScope) : Prop :=
  w.session.state.place id = some (item, scope) ∨
    (id, item) ∈ w.issuedBy P cfg ev ∧ ∃ items, ev.op.batch = some (scope, items)

/-- The event leaves the item live. -/
def World.Spares (P : Platform) (cfg : Settings) (w : World) (ev : Event) (id : ItemId) : Prop :=
  (w.step P cfg ev).session.state.scopeOf id ≠ none

theorem involves_of_begins {t t' : Instant} (hσ : Sound P L w.session)
    (hbegin : Begins P cfg t t' ev.op (w.prepare ev).session τ) (hends : Ends P cfg τ (w.step P cfg ev).session)
    (hplace : τ.state.place id = some (item, s)) : w.Involves P cfg ev id item s := by
  have hprep : Sound P L (w.prepare ev).session := hσ.same (samePlaces_prepare w ev)
  rcases issuedBy_of_begins hbegin hends with ⟨scope, items, now, hop, hadm, rfl, hissued⟩ | ⟨hsame, -⟩
  · rcases (hprep.place_added hadm).mp hplace with ⟨hp, rfl⟩ | hplace
    · exact Or.inr ⟨hissued ▸ hp, items, hop⟩
    · exact Or.inl hplace
  · exact Or.inl ((hsame.place id).symm.trans hplace)

/-- What a crash leaves in the stores: whole copies, each of an item that the event finds or adds, where it was or on
its way; and a copy of every item the event spares, but for a batch that was not written yet. -/
structure Crashed (P : Platform) (cfg : Settings) (L : List (ItemId × ContextItem)) (w : World) (ev : Event)
    (ρ : Session) : Prop where
  sound : ∃ L', L' ⊆ L ++ w.issuedBy P cfg ev ∧ Sound P L' ρ
  stored : ∀ {s q id}, q ∈ ρ.stores.get s → Owned id q → ∃ item s₀, w.Involves P cfg ev id item s₀ ∧
    (s = s₀ ∨ MovedTo (w.step P cfg ev).session id s)
  kept : ∀ {id item s}, w.session.state.place id = some (item, s) → w.Spares P cfg ev id → ∃ s', Holds P ρ s' id item
  batch : (∀ p ∈ w.issuedBy P cfg ev, ∀ s, Lacks ρ s p.1) ∨
    ∀ p ∈ w.issuedBy P cfg ev, w.Spares P cfg ev p.1 → ∃ s, Holds P ρ s p.1 p.2

theorem crashed (hσ : Sound P L w.session) (hsettled : Settled w.session) (hclean : ev.Clean) (k : Nat) :
    ∃ ρ, Crashed P cfg L w ev ρ ∧ (w.crash P cfg ev k).session.stores = ρ.stores := by
  obtain ⟨τ, hbegin, hends, htrail⟩ := step_spec P cfg w ev
  obtain ⟨marks, hmarks⟩ := Trail.refl.commits (htrail hclean)
  obtain ⟨ρ, hρ, hstores⟩ := crash_stores hbegin hmarks (.between (htrail hclean) .refl) k
  have hfull : Sound P (L ++ w.issuedBy P cfg ev) (w.step P cfg ev).session := hσ.step ev
  have hspared : ∀ {id item}, (id, item) ∈ L ++ w.issuedBy P cfg ev → w.Spares P cfg ev id →
      ∃ s, (w.step P cfg ev).session.state.place id = some (item, s) := by
    intro id item hmem hspares
    obtain ⟨s, hs⟩ := Option.ne_none_iff_exists'.mp hspares
    obtain ⟨e, he, -⟩ := State.scopeOf_eq_some.mp hs
    have hplace := State.place_of_live he
    exact ⟨e.scope, hfull.distinct hmem (hfull.known hplace) ▸ hplace⟩
  refine ⟨ρ, ?_, hstores⟩
  rcases hρ with rfl | hcut
  · -- Nothing was committed yet.
    have hprep : Sound P L (w.prepare ev).session := hσ.same (samePlaces_prepare w ev)
    refine ⟨⟨L, List.subset_append_left .., hprep⟩, fun {s q id} hq ho => ?_,
      fun hplace _ => ⟨_, hprep.home hplace⟩, ?_⟩
    · obtain ⟨item, hplace⟩ := hsettled hq ho
      exact ⟨item, s, Or.inl hplace, Or.inl rfl⟩
    · refine Or.inl fun p hp s q ho hq => ?_
      obtain ⟨id, item, hL, ho'⟩ := hprep.owned hq
      have hfresh := hσ.fresh hL
      have hissued := (issuedBy_ge P cfg w ev).1 p hp
      rw [ho'.unique ho] at hfresh
      omega
  · have hτ : Sound P (L ++ w.issuedBy P cfg ev) τ := hσ.begins hbegin hends
    have hτ' : Settled τ := hsettled.begins hσ hbegin hends
    have hsound : Sound P (L ++ w.issuedBy P cfg ev) ρ := hτ.ends hcut.ends
    have hkept : ∀ {id item}, (id, item) ∈ L ++ w.issuedBy P cfg ev → w.Spares P cfg ev id →
        ∃ s, Holds P ρ s id item := by
      intro id item hmem hspares
      obtain ⟨s, hs⟩ := hspared hmem hspares
      obtain ⟨s', hs'⟩ := hcut.place hs
      exact ⟨s', hsound.home hs'⟩
    refine ⟨⟨_, List.Subset.refl _, hsound⟩, fun {s q id} hq ho => ?_,
      fun hplace => hkept (List.mem_append_left _ (hσ.known hplace)), ?_⟩
    · obtain ⟨item, s₀, hplace, hs⟩ := hcut.stored hτ' hq ho
      exact ⟨item, s₀, involves_of_begins hσ hbegin hends hplace, hs⟩
    · exact Or.inr fun p hp => hkept (List.mem_append_right _ hp)

theorem Sound.copy (hσ : Sound P L ρ) (h : Holds P ρ s id item) : ∃ item', (id, item') ∈ L ∧ Holds P ρ s id item' := by
  have hquad := metadataQuad_mem_encode P id item
  obtain ⟨id', item', hL, ho⟩ := hσ.owned (h.mem hquad)
  obtain rfl := ho.unique (owned_of_mem_encode hquad)
  exact ⟨item', hL, (hσ.whole hL s).resolve_right h.not_lacks⟩

/-- A crash after any number of storage commits of the last operation of a run whose transactions all commit. Opening
the stores it leaves succeeds. Every item that was live and that the operation does not remove or drop is there with
its content. Of a batch being added there is nothing, or everything but what the operation itself drops. Nothing else
is there, and each item is where it was (or added), or where the operation moves it, in the most durable scope that
has a copy of it. -/
theorem crash_consistent (P : Platform) (cfg : Settings) (evs : List Event) (ev : Event) (k : Nat)
    (elapsed : List Duration) (hclean : ∀ ev' ∈ evs, ev'.Clean) (hlast : ev.Clean)
    (hread : Readable P (World.start.issued P cfg (evs ++ [ev]))) :
    let w := World.start.run P cfg evs
    let crash := w.crash P cfg ev k
    let items := (crash.reopen P [] elapsed).2.session.state.items
    (crash.reopen P [] elapsed).1 = .ok () ∧
      (∀ (id : ItemId) (e : Entry), w.session.state.items[id]? = some e → w.Spares P cfg ev id →
        ∃ e' : Entry, items[id]? = some e' ∧ SameContent e'.item e.item) ∧
      ((∀ p ∈ w.issuedBy P cfg ev, items[p.1]? = none) ∨
        ∀ p ∈ w.issuedBy P cfg ev, w.Spares P cfg ev p.1 →
          ∃ e' : Entry, items[p.1]? = some e' ∧ SameContent e'.item p.2) ∧
      ∀ (id : ItemId) (e' : Entry), items[id]? = some e' → ∃ item scope, w.Involves P cfg ev id item scope ∧
        SameContent e'.item item ∧ (e'.scope = scope ∨ MovedTo (w.step P cfg ev).session id e'.scope) ∧
        ∀ s, e'.scope < s → Lacks crash.session s id := by
  intro w crash items
  have hσ : Sound P (World.start.issued P cfg evs) w.session := sound_run P cfg evs
  have hissued : World.start.issued P cfg (evs ++ [ev]) = World.start.issued P cfg evs ++ w.issuedBy P cfg ev := by
    rw [issued_append]
    simp [World.issued, w]
  have hfull : Sound P (World.start.issued P cfg evs ++ w.issuedBy P cfg ev) (w.step P cfg ev).session := hσ.step ev
  have hsettled : Settled w.session := settled_run P cfg hclean
  obtain ⟨ρ, hcrashed, hstores⟩ : ∃ ρ, Crashed P cfg _ w ev ρ ∧ crash.session.stores = ρ.stores :=
    crashed hσ hsettled hlast k
  obtain ⟨L', hL', hsound⟩ := hcrashed.sound
  have hread' : Readable P L' := fun p hp => hread p (hissued ▸ hL' hp)
  obtain ⟨hok, -, hopened⟩ := reopen_spec (w := crash) hsound hread' hstores elapsed
  have hfound : ∀ {id item s}, (id, item) ∈ World.start.issued P cfg evs ++ w.issuedBy P cfg ev →
      Holds P ρ s id item → ∃ e' : Entry, items[id]? = some e' ∧ SameContent e'.item item := by
    intro id item s hmem hholds
    obtain ⟨item', hmem', hholds'⟩ := hsound.copy hholds
    obtain ⟨e', he'⟩ := hopened.complete hmem' hholds'
    obtain ⟨item₁, hmem₁, -, hsame, -⟩ := hopened.found he'
    exact ⟨e', he', hfull.distinct (hL' hmem₁) hmem ▸ hsame⟩
  refine ⟨hok, fun id e he hspares => ?_, ?_, fun id e' he' => ?_⟩
  · have hplace := State.place_of_live he
    obtain ⟨s, hholds⟩ := hcrashed.kept hplace hspares
    exact hfound (List.mem_append_left _ (hσ.known hplace)) hholds
  · rcases hcrashed.batch with hnothing | hall
    · refine Or.inl fun p hp => ?_
      cases he' : items[p.1]? with
      | none => rfl
      | some e' =>
          obtain ⟨item, -, hholds, -⟩ := hopened.found he'
          exact (hholds.not_lacks (hnothing p hp _)).elim
    · refine Or.inr fun p hp hspares => ?_
      obtain ⟨s, hholds⟩ := hall p hp hspares
      exact hfound (List.mem_append_right _ hp) hholds
  · obtain ⟨item, hmem, hholds, hsame, hlacks⟩ := hopened.found he'
    have hquad := hholds.mem (metadataQuad_mem_encode P id item)
    obtain ⟨item', scope, hinvolves, hscope⟩ :=
      hcrashed.stored hquad (owned_of_mem_encode (metadataQuad_mem_encode P id item))
    have hmem' : (id, item') ∈ World.start.issued P cfg evs ++ w.issuedBy P cfg ev := by
      rcases hinvolves with hplace | ⟨hp, -⟩
      · exact List.mem_append_left _ (hσ.known hplace)
      · exact List.mem_append_right _ hp
    rw [hfull.distinct (hL' hmem) hmem'] at hsame
    exact ⟨item', scope, hinvolves, hsame, hscope, fun s hlt => (hlacks s hlt).congr fun q _ => by rw [hstores]⟩

/-- A promotion cut between its two commits: both stores have a copy, and the more durable one counts. -/
theorem crash_consistent_between_commits :
    let evs : List Event := [⟨.addBatch .minor [note, note], [], []⟩]
    let ev : Event := ⟨.promote [⟨0⟩] .minor .major, [.commit], []⟩
    let opened := ((World.start.run notePlatform (manual none) evs).crash notePlatform (manual none) ev 1).reopen
      notePlatform [] []
    opened.1 = .ok () ∧ opened.2.session.state.scopeOf ⟨0⟩ = some .major ∧
      ∃ e : Entry, opened.2.session.state.items[(⟨0⟩ : ItemId)]? = some e ∧ SameContent e.item note := by
  intro evs ev opened
  have hissued : World.start.issued notePlatform (manual none) (evs ++ [ev]) = [(⟨0⟩, note), (⟨1⟩, note)] := rfl
  obtain ⟨hok, hkept, -⟩ := crash_consistent notePlatform (manual none) evs ev 1 [] (by simp [evs, Event.Clean])
    (by simp [ev, Event.Clean]) (readable_of_notes (by simp [hissued]))
  have hbefore : (World.start.run notePlatform (manual none) evs).session.state.items[(⟨0⟩ : ItemId)]? =
      some (Entry.new note .minor .added 0) := rfl
  have hspares : (World.start.run notePlatform (manual none) evs).Spares notePlatform (manual none) ev ⟨0⟩ := by
    unfold World.Spares
    decide +kernel
  refine ⟨hok, by decide +kernel, ?_⟩
  simp only [opened]
  exact hkept ⟨0⟩ _ hbefore hspares

/-- A batch of two against a bound of one, cut after its insert and the delete of the item over the bound: one item of
the batch is there and the other is not. -/
theorem batch_partly_present :
    let ev : Event := ⟨.addBatch .minor [note, note], [], []⟩
    let crash := World.start.crash notePlatform (manual (some 1)) ev 2
    let st := (crash.reopen notePlatform [] []).2.session.state
    ev.Clean ∧ Readable notePlatform (World.start.issued notePlatform (manual (some 1)) [ev]) ∧
      World.start.issuedBy notePlatform (manual (some 1)) ev = [(⟨0⟩, note), (⟨1⟩, note)] ∧
      st.scopeOf ⟨0⟩ = none ∧ st.scopeOf ⟨1⟩ = some .minor := by
  intro ev crash st
  have hissued : World.start.issued notePlatform (manual (some 1)) [ev] = [(⟨0⟩, note), (⟨1⟩, note)] := rfl
  refine ⟨by simp [ev, Event.Clean], readable_of_notes (by simp [hissued]), rfl, ?_, ?_⟩
  · decide +kernel
  · decide +kernel

end

end Semanticore.Context
