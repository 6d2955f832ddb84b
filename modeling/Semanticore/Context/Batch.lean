import Semanticore.Context.Coherence
import Semanticore.Context.Lemmas.Fill

/-!
# Adding a batch and adding one by one

`add_batch` enforces the bounds once, after the batch; a loop of `add` enforces them after every item. Under LRU and
LFU both leave the same items in the same tiers.
-/

namespace Semanticore.Context
open Semanticore.Core Semanticore.Lib

variable {P : Platform} {cfg : Settings} {σ : Session} {w w' : World} {ev : Event} {evs : List Event} {scope : ContextScope}
  {item : ContextItem} {items items' : List ContextItem}

/-- What the calls of a run return. -/
def World.replies (P : Platform) (cfg : Settings) (w : World) : List Event → List (Except Halt Reply)
  | [] => []
  | ev :: evs => (w.perform P cfg ev).1 :: (w.step P cfg ev).replies P cfg evs

/-- An item that passes its checks in every Session: it is valid and cites no other item. -/
structure Plain (st : State) (item : ContextItem) : Prop where
  valid : validate st item = .ok ()
  uncited : item.provenance.derivedFrom = []

/-! ## One call -/

/-- A batch of valid items is not refused. -/
theorem addBatch_valid (hvalid : ∀ item ∈ items, validate w.session.state item = .ok ()) :
    Runs Later (addBatch P cfg scope items) w (fun _ _ => True) (fun h _ => h = .panic ∨ h = .err .storage) := by
  unfold addBatch
  apply runs_getState
  refine (forM_validate.mono (fun _ _ _ h => h) fun h w' _ hh => ?_).bind fun _ w₀ _ h₀ => ?_
  · obtain ⟨-, e, -, item, hmem, he⟩ := hh
    cases (hvalid item hmem).symm.trans he
  obtain ⟨rfl, -⟩ := h₀
  refine (checkedAdd_spec.mono (fun _ _ _ h => h) fun _ _ _ h => Or.inl h.1).bind fun nextId w₁ _ _ => ?_
  refine (withWrite_spec.mono (fun _ _ _ h => h) fun _ _ _ h => Or.inr h.storage).bind fun _ w₂ _ _ => ?_
  refine instantNow_spec.bind fun now w₃ _ _ => ?_
  apply runs_modifySession
  refine ((sweep_spec P cfg _ _).mono (fun _ _ _ h => h) fun _ _ _ h => Or.inr h.storage).bind fun _ w₄ _ _ => ?_
  exact Runs.ret trivial

/-- Without failures a batch of valid items is added, unless the ids run out. -/
theorem addBatch_fills (P : Platform) (cfg : Settings) (scope : ContextScope) (hclean : w.Clean)
    (hvalid : ∀ item ∈ items, validate w.session.state item = .ok ()) :
    Runs Later (addBatch P cfg scope items) w
      (fun ids w' => ids = idRange w.session.state.nextId items.length ∧
        Fills P cfg scope items w.now w'.now w.session w'.session)
      (fun h _ => h = .panic ∧ 2 ^ 64 ≤ w.session.state.nextId.toNat + items.length) := by
  refine ((addBatch_spec (.addBatch scope items) rfl).and (addBatch_valid hvalid)).mono (fun ids w' _ h => ?_)
    fun h w' _ hh => ?_
  · obtain ⟨⟨hids, hadm, now, rfl, hle', hsweep, htrail⟩, -⟩ := h
    exact ⟨hids, hadm.room, _, w.now_le_reading, hle', hsweep, htrail⟩
  · obtain ⟨hhalts, -, hvalid⟩ := hh
    cases hhalts with
    | refused he hsame =>
        rcases hvalid with h | h
        · cases h
        · cases h
          exact (he rfl).elim
    | overflow hop hfull hsame =>
        cases hop
        exact ⟨rfl, hfull⟩
    | failed hunclean hbegin hends => exact (hunclean hclean).elim

/-- What a call returns that adds a batch if the ids suffice. -/
theorem perform_fills (items : List ContextItem) {reply : Reply} (hspec : Runs Later (ev.op.exec P cfg) (w.prepare ev)
      (fun r w' => r = reply ∧ Fills P cfg scope items w.now w'.now (w.prepare ev).session w'.session)
      fun h _ => h = .panic ∧ 2 ^ 64 ≤ w.session.state.nextId.toNat + items.length) :
    if w.session.state.nextId.toNat + items.length < 2 ^ 64 then
      (w.perform P cfg ev).1 = .ok reply ∧
        Fills P cfg scope items w.now (w.step P cfg ev).now (w.prepare ev).session (w.step P cfg ev).session
    else (w.perform P cfg ev).1 = .error .panic := by
  cases hres : (w.perform P cfg ev).1 with
  | ok r =>
      obtain ⟨rfl, hfills⟩ := perform_ok hspec hres
      have hroom : w.session.state.nextId.toNat + items.length < 2 ^ 64 := hfills.room
      rw [if_pos hroom]
      exact ⟨rfl, hfills⟩
  | error h =>
      obtain ⟨rfl, hfull⟩ := perform_error hspec hres
      rw [if_neg (not_lt.mpr hfull)]

theorem addBatch_perform (P : Platform) (cfg : Settings) (w : World) (hop : ev.op = .addBatch scope items) (hclean : ev.Clean)
    (hvalid : ∀ item ∈ items, validate w.session.state item = .ok ()) :
    if w.session.state.nextId.toNat + items.length < 2 ^ 64 then
      (w.perform P cfg ev).1 = .ok (.ids (idRange w.session.state.nextId items.length)) ∧
        Fills P cfg scope items w.now (w.step P cfg ev).now (w.prepare ev).session (w.step P cfg ev).session
    else (w.perform P cfg ev).1 = .error .panic := by
  refine perform_fills items ?_
  rw [hop]
  refine Runs.map ((addBatch_fills P cfg scope (w := w.prepare ev) (clean_prepare hclean) hvalid).mono (fun ids _ _ h => ?_)
    fun _ _ _ h => h)
  exact ⟨congrArg Reply.ids h.1, h.2⟩

theorem add_perform (P : Platform) (cfg : Settings) (w : World) (hop : ev.op = .add scope item) (hclean : ev.Clean)
    (hvalid : validate w.session.state item = .ok ()) :
    if w.session.state.nextId.toNat + 1 < 2 ^ 64 then
      (w.perform P cfg ev).1 = .ok (.id ⟨w.session.state.nextId⟩) ∧
        Fills P cfg scope [item] w.now (w.step P cfg ev).now (w.prepare ev).session (w.step P cfg ev).session
    else (w.perform P cfg ev).1 = .error .panic := by
  refine perform_fills [item] ?_
  have hvalid' : ∀ item' ∈ [item], validate (w.prepare ev).session.state item' = .ok () := fun _ hmem =>
    List.mem_singleton.mp hmem ▸ hvalid
  rw [hop]
  refine Runs.map ?_
  unfold add
  refine (addBatch_fills P cfg scope (clean_prepare hclean) hvalid').bind fun ids w' _ h => ?_
  obtain ⟨rfl, hfills⟩ := h
  refine Runs.ret ⟨?_, hfills⟩
  simp [World.prepare]

/-! ## A loop of calls -/

theorem Plain.anywhere {st : State} (h : Plain st item) (st' : State) : validate st' item = .ok () := by
  obtain ⟨hsource, hgraph, hfinite, -⟩ := validate_ok.mp h.valid
  exact validate_ok.mpr ⟨hsource, hgraph, hfinite, by simp [h.uncited]⟩

theorem Filled.prepare {t : Instant} (h : Filled P cfg scope items t σ w.session) (ev : Event) :
    Filled P cfg scope items t σ (w.prepare ev).session := ⟨h.room, h.round, h.grows, h.next⟩

theorem toNat_succ {n : UInt64} (h : n.toNat + 1 < 2 ^ 64) : (n + 1).toNat = n.toNat + 1 := by
  rw [UInt64.toNat_add, UInt64.toNat_one]
  omega

theorem idRange_succ (first : UInt64) (n : Nat) : idRange first (n + 1) = ⟨first⟩ :: idRange (first + 1) n := by
  rw [Nat.add_comm, idRange_append]
  simp [idRange]

/-- What one call of a loop of `add` does. -/
theorem adds_cons (P : Platform) (cfg : Settings) (w : World) {st : State}
    (hops : (ev :: evs).map (·.op) = (item :: items).map (.add scope))
    (hclean : ∀ ev' ∈ ev :: evs, ev'.Clean) (hplain : ∀ item' ∈ item :: items, Plain st item')
    (hroom : w.session.state.nextId.toNat + 1 < 2 ^ 64) :
    (w.perform P cfg ev).1 = .ok (.id ⟨w.session.state.nextId⟩) ∧
      Fills P cfg scope [item] w.now (w.step P cfg ev).now (w.prepare ev).session (w.step P cfg ev).session ∧
      (w.step P cfg ev).session.state.nextId = w.session.state.nextId + 1 := by
  obtain ⟨hop, -⟩ := List.cons.inj hops
  have hone := add_perform P cfg w hop (hclean ev (by simp)) ((hplain item (by simp)).anywhere _)
  rw [if_pos hroom] at hone
  exact ⟨hone.1, hone.2, hone.2.next⟩

/-- A loop of `add` after a first round. -/
theorem adds_filled (hpolicy : ByKey cfg) {st : State} {t : Instant} (hσ : Tidy t σ.state)
    (h : Filled P cfg scope items t σ w.session) (hw : Tidy w.now w.session.state)
    (hops : evs.map (·.op) = items'.map (.add scope)) (hclean : ∀ ev ∈ evs, ev.Clean) (hplain : ∀ item ∈ items', Plain st item)
    (hroom : w.session.state.nextId.toNat + items'.length < 2 ^ 64) :
    w.replies P cfg evs = (idRange w.session.state.nextId items'.length).map (fun id => .ok (.id id)) ∧
      Filled P cfg scope (items ++ items') t σ (w.run P cfg evs).session := by
  induction items' generalizing items w evs with
  | nil =>
      obtain rfl := List.map_eq_nil_iff.mp hops
      rw [List.append_nil]
      exact ⟨rfl, h⟩
  | cons item items' ih =>
      cases evs with
      | nil => cases hops
      | cons ev evs =>
          rw [List.length_cons] at hroom ⊢
          obtain ⟨hreply, hfills, hnext⟩ := adds_cons P cfg w hops hclean hplain (by omega)
          have hround := (h.prepare ev).again hpolicy hfills hσ hw
          obtain ⟨hreplies, hrest⟩ := ih hround hw.step (List.cons.inj hops).2 (fun ev' h => hclean ev' (by simp [h]))
            (fun item' h => hplain item' (by simp [h])) (by rw [hnext, toNat_succ (by omega)]; omega)
          rw [World.replies, World.run_cons, hreply, hreplies, hnext, idRange_succ]
          refine ⟨rfl, ?_⟩
          rwa [List.append_assoc] at hrest

/-- A loop of `add` stops when the ids run out. -/
theorem adds_panic {st : State} (hops : evs.map (·.op) = items.map (.add scope)) (hclean : ∀ ev ∈ evs, ev.Clean)
    (hplain : ∀ item ∈ items, Plain st item) (hfull : 2 ^ 64 ≤ w.session.state.nextId.toNat + items.length) :
    .error .panic ∈ w.replies P cfg evs := by
  induction items generalizing w evs with
  | nil => exact absurd w.session.state.nextId.toNat_lt (not_lt.mpr hfull)
  | cons item items ih =>
      cases evs with
      | nil => cases hops
      | cons ev evs =>
          rw [List.length_cons] at hfull
          rw [World.replies, List.mem_cons]
          by_cases hroom : w.session.state.nextId.toNat + 1 < 2 ^ 64
          · obtain ⟨-, -, hnext⟩ := adds_cons P cfg w hops hclean hplain hroom
            refine Or.inr (ih (List.cons.inj hops).2 (fun ev' h => hclean ev' (by simp [h]))
              (fun item' h => hplain item' (by simp [h])) ?_)
            rw [hnext, toNat_succ hroom]
            omega
          · have hone := add_perform P cfg w (List.cons.inj hops).1 (hclean ev (by simp))
              ((hplain item (by simp)).anywhere _)
            rw [if_neg hroom] at hone
            exact Or.inl hone.symm

/-! ## The two ways -/

/-- From every state that calls, crashes and reopening lead to, under LRU and LFU and without storage failures: adding
items one by one returns the ids that adding them as a batch returns, and leaves the same Session up to the times of
touches, however the clock runs. If the ids do not suffice, both panic. -/
theorem addBatch_eq_adds (P : Platform) (cfg : Settings) {L : List (ItemId × ContextItem)} {w : World}
    (hlife : Life P World.start L w) (hpolicy : ByKey cfg) (scope : ContextScope) (items : List ContextItem)
    (hne : items ≠ []) (hplain : ∀ item ∈ items, Plain w.session.state item) (batch : Event) (adds : List Event)
    (hbatch : batch.op = .addBatch scope items) (hadds : adds.map (·.op) = items.map (.add scope))
    (hclean : ∀ ev ∈ batch :: adds, ev.Clean) :
    let ids := idRange w.session.state.nextId items.length
    if w.session.state.nextId.toNat + items.length < 2 ^ 64 then
      (w.perform P cfg batch).1 = .ok (.ids ids) ∧ w.replies P cfg adds = ids.map (fun id => .ok (.id id)) ∧
        (w.step P cfg batch).session.view = (w.run P cfg adds).session.view
    else (w.perform P cfg batch).1 = .error .panic ∧ .error .panic ∈ w.replies P cfg adds := by
  intro ids
  have hw := hlife.tidy
  obtain ⟨hcleanBatch, hcleanAdds⟩ := List.forall_mem_cons.mp hclean
  have hwhole := addBatch_perform P cfg w hbatch hcleanBatch fun item h => (hplain item h).valid
  by_cases hroom : w.session.state.nextId.toNat + items.length < 2 ^ 64
  · rw [if_pos hroom] at hwhole ⊢
    have htidy : Tidy w.now (w.prepare batch).session.state := hw
    have hatonce := hwhole.2.first hpolicy htidy
    obtain ⟨item, items, rfl⟩ := List.exists_cons_of_ne_nil hne
    cases adds with
    | nil => cases hadds
    | cons ev evs =>
        rw [List.length_cons] at hroom
        obtain ⟨hreply, hfills, hnext⟩ := adds_cons P cfg w hadds hcleanAdds hplain (by omega)
        obtain ⟨hreplies, hinturn⟩ := adds_filled hpolicy htidy (hfills.first hpolicy htidy) hw.step (List.cons.inj hadds).2
          (fun ev' h => hcleanAdds ev' (by simp [h])) (fun item' h => hplain item' (by simp [h]))
          (by rw [hnext, toNat_succ (by omega)]; omega)
        refine ⟨hwhole.1, ?_, hatonce.view_eq hinturn⟩
        rw [World.replies, hreply, hreplies, hnext]
        simp [ids, idRange_succ]
  · rw [if_neg hroom] at hwhole ⊢
    exact ⟨hwhole, adds_panic hadds hcleanAdds hplain (not_lt.mp hroom)⟩

/-- Major and minor take one item each, and what major evicts goes to minor. -/
def cascading : Settings :=
  { manual (some 1) with bounds := ⟨none, some 1, some 1⟩, demotionTarget := .nextColder }

/-- Two notes on top of one: of the three, one is dropped, one is demoted to minor and the last one stays in major. -/
theorem addBatch_eq_adds_two_tiers :
    let w := World.start.step notePlatform cascading ⟨.add .major note, [], []⟩
    let batch : Event := ⟨.addBatch .major [note, note], [], [7]⟩
    let adds : List Event := [⟨.add .major note, [], [1]⟩, ⟨.add .major note, [.commit], [2, 3]⟩]
    (w.run notePlatform cascading adds).session.state.scopeOf ⟨1⟩ = some .minor ∧
      w.replies notePlatform cascading adds = [.ok (.id ⟨1⟩), .ok (.id ⟨2⟩)] ∧
      (w.step notePlatform cascading batch).session.view = (w.run notePlatform cascading adds).session.view := by
  intro w batch adds
  have hlife : Life notePlatform World.start _ w := .call cascading ⟨.add .major note, [], []⟩ .here
  have hplain : ∀ item ∈ [note, note], Plain w.session.state item := by
    have hnote : Plain w.session.state note := ⟨by rfl, rfl⟩
    simpa using hnote
  have hroom : w.session.state.nextId.toNat + [note, note].length < 2 ^ 64 := by decide +kernel
  have heq := addBatch_eq_adds notePlatform cascading hlife (.inl rfl) .major [note, note] (by simp) hplain batch adds rfl rfl
    (by simp [batch, adds, Event.Clean])
  rw [if_pos hroom] at heq
  exact ⟨by decide +kernel, heq.2.1, heq.2.2⟩

end Semanticore.Context
