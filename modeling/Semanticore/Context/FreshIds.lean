import Semanticore.Context.Coherence
import Semanticore.Context.Lemmas.Attempts
import Semanticore.Context.Lemmas.Opening
import Semanticore.Context.Lemmas.Tidy

/-!
# Fresh ids

`open` starts `next_id` after the last id it finds, and `add_batch` advances it by the length of the batch. Both additions
overflow next to 2^64; until then no id is issued twice, and none that an item in a store has.
-/

namespace Semanticore.Context
open Semanticore.Core Semanticore.Lib

/-- The ids of stored records are below `next_id`. -/
def RecordsBelow (σ : Session) : Prop :=
  ∀ s q id, q ∈ σ.stores.get s → RecordOf id q → id.n.toNat < σ.state.nextId.toNat

namespace World

variable (P : Platform) (cfg : Settings)

/-- There are ids for the batch the event adds, unless the batch is refused. -/
def Fits (w : World) (ev : Event) : Prop :=
  ∀ scope items, ev.op.batch = some (scope, items) → (∀ item ∈ items, validate w.session.state item = .ok ()) →
    w.session.state.nextId.toNat + items.length < 2 ^ 64

/-- Every batch of a run fits. -/
def RunFits (w : World) : List Event → Prop
  | [] => True
  | ev :: evs => w.Fits ev ∧ (w.step P cfg ev).RunFits evs

end World

variable {P : Platform} {cfg : Settings} {σ τ : Session} {w w' : World} {ev : Event} {evs : List Event} {t t' : Instant}
  {id : ItemId} {items : List ContextItem} {scope : ContextScope}

/-! ## Records -/

/-- A store only gets quads that were stored before or that represent a live item. -/
theorem RecordsBelow.of_quads (h : RecordsBelow σ) (htidy : Tidy t σ.state) (hnext : τ.state.nextId = σ.state.nextId)
    (hquads : ∀ s q, q ∈ τ.stores.get s → q ∈ σ.stores.get s ∨
      ∃ (id : ItemId) (e : Entry), σ.state.items[id]? = some e ∧ q ∈ encode P id e.item) : RecordsBelow τ := by
  intro s q id hq hrecord
  rw [hnext]
  rcases hquads s q hq with hq | ⟨id', e, he, henc⟩
  · exact h s q id hq hrecord
  · cases (owned_of_mem_encode henc).unique hrecord.owned
    exact htidy.fresh id e he

theorem RecordsBelow.act (h : RecordsBelow σ) (htidy : Tidy t σ.state) (hact : Act P cfg σ τ) : RecordsBelow τ :=
  h.of_quads (P := P) htidy (nextId_act hact) fun _ _ => hact.stored

theorem RecordsBelow.halfMove (h : RecordsBelow σ) (htidy : Tidy t σ.state) (hhalf : HalfMove P σ τ) : RecordsBelow τ :=
  h.of_quads (P := P) htidy (nextId_halfMove hhalf) fun _ _ => hhalf.stored

theorem RecordsBelow.ends (h : RecordsBelow σ) (htidy : Tidy t σ.state) (hends : Ends P cfg σ τ) : RecordsBelow τ := by
  have hboth : Tidy t τ.state ∧ RecordsBelow τ := by
    refine hends.keeps (I := fun σ => Tidy t σ.state ∧ RecordsBelow σ)
      (fun hact h => ⟨h.1.act hact, h.2.act h.1 hact⟩) (fun hhalf h => ?_) ⟨htidy, h⟩
    have hstep : Ends P cfg _ _ := hhalf.ends
    exact ⟨h.1.ends hstep, h.2.halfMove h.1 hhalf⟩
  exact hboth.2

theorem RecordsBelow.added (h : RecordsBelow σ) (hroom : σ.state.nextId.toNat + items.length < 2 ^ 64) (now : Instant) :
    RecordsBelow (σ.added P scope items now) := by
  intro s q id hq hrecord
  rw [Session.nextId_added hroom]
  rcases Session.mem_added.mp hq with hq | ⟨-, p, hp, henc⟩
  · exact (h s q id hq hrecord).trans_le (Nat.le_add_right ..)
  · cases (owned_of_mem_encode henc).unique hrecord.owned
    exact (Session.mem_batch_ids hroom hp).2

theorem RecordsBelow.same (h : RecordsBelow σ) (hsame : SamePlaces σ τ) : RecordsBelow τ := fun s q id hq hrecord =>
  hsame.nextId ▸ h s q id (hsame.stores ▸ hq) hrecord

theorem RecordsBelow.step (h : RecordsBelow w.session) (htidy : Tidy w.now w.session.state) :
    RecordsBelow (w.step P cfg ev).session := by
  obtain ⟨τ, hbegin, hends, -⟩ := step_spec P cfg w ev
  have hprep : RecordsBelow (w.prepare ev).session := h
  have hτ : RecordsBelow τ := by
    rcases issuedBy_of_begins hbegin hends with ⟨scope, items, now, -, hadm, rfl, -⟩ | ⟨hsame, -⟩
    · exact hprep.added hadm.room now
    · exact hprep.same hsame
  have htidy' : Tidy w.now (w.prepare ev).session.state := htidy
  exact hτ.ends (htidy'.begins hbegin (now_le_step P cfg w ev)) hends

theorem records_run (P : Platform) (cfg : Settings) (h : RecordsBelow w.session)
    (htidy : Tidy w.now w.session.state) (evs : List Event) : RecordsBelow (w.run P cfg evs).session := by
  induction evs generalizing w with
  | nil => exact h
  | cons ev evs ih => exact ih (h.step htidy) htidy.step

/-- After `open`, by what it loaded. -/
theorem Loaded.recordsBelow {stores : Tiers Store} {now : Instant} (h : Loaded P stores now σ.state)
    (hstores : σ.stores = stores) : RecordsBelow σ := by
  intro s q id hq hrecord
  obtain ⟨loaded, hload, hall⟩ := h.complete s
  rw [hstores] at hq
  obtain ⟨item, hmem, -⟩ := load_of_record hload hq hrecord
  obtain ⟨e, he⟩ := hall _ hmem
  exact h.fresh id e he

/-! ## Calls -/

/-- A call panics only if a batch that passed its checks does not fit. -/
theorem perform_of_fits (h : w.Fits ev) : (w.perform P cfg ev).1 ≠ .error .panic := by
  intro hpanic
  cases perform_error (op_spec P cfg ev.op (w.prepare ev)) hpanic with
  | @overflow _ scope items hop hfull hsame =>
      by_cases hvalid : ∀ item ∈ items, validate w.session.state item = .ok ()
      · exact absurd (h scope items hop hvalid) (not_lt.mpr hfull)
      · obtain ⟨e, hinvalid⟩ := attempts_addBatch_invalid P cfg scope
          (m := (w.prepare ev).moment) hvalid
        have hresult := ((attempts_add_refused hop hinvalid).perform_ends (stopped_eq_none.mpr fun _ _ => Nat.zero_le _)).1
        cases hpanic.symm.trans hresult

/-- What a call that adds a batch returns. -/
theorem perform_added {reply : Reply} (hop : ev.op.batch = some (scope, items))
    (hok : (w.perform P cfg ev).1 = .ok reply) :
    Admissible w.session items ∧ reply.addedIds = idRange w.session.state.nextId items.length := by
  by_cases hadm : Admissible (w.prepare ev).moment.session items
  · obtain ⟨reply', hids, hattempts⟩ := attempts_added P cfg hop hadm
    refine ⟨⟨hadm.valid, hadm.room⟩, ?_⟩
    generalize (w.prepare ev).moment.session ::
      Moment.sweepPoints P cfg scope.andColder ((w.prepare ev).moment.added P scope items) = points at hattempts
    cases hs : stopped ev.fates points with
    | some τ => cases hok.symm.trans (hattempts.perform_fails hs).1
    | none =>
        cases hok.symm.trans (hattempts.perform_ends hs).1
        exact hids
  · obtain ⟨halt, hattempts⟩ := attempts_add_inadmissible P cfg hop hadm
    cases hok.symm.trans (hattempts.perform_ends (stopped_eq_none.mpr fun _ _ => Nat.zero_le _)).1

/-! ## Ids -/

theorem RunFits.last (h : w.RunFits P cfg (evs ++ [ev])) : (w.run P cfg evs).Fits ev := by
  induction evs generalizing w with
  | nil => exact h.1
  | cons _ evs ih => exact ih h.2

/-- If no store has a record of the last id, `open` does not panic. In a run from an `open` that succeeds, if the batches
fit, no call panics, and each call that adds a batch and returns gives one id for each item: different ids, none of them
that of a live item, of a stored record, or issued before. -/
theorem issued_ids_fresh (P : Platform) (persistent : Tiers Bool) (w : World) (hlast : ¬ Overfull P w.session.stores) :
    ((openSession P persistent).run.run w).1 ≠ .error .panic ∧
    ∀ w₀, (openSession P persistent).run.run w = (.ok (), w₀) → ∀ (cfg : Settings) (evs : List Event) (ev : Event),
      w₀.RunFits P cfg (evs ++ [ev]) →
      let w₁ := w₀.run P cfg evs
      (w₁.perform P cfg ev).1 ≠ .error .panic ∧
      ∀ scope items reply, ev.op.batch = some (scope, items) → (w₁.perform P cfg ev).1 = .ok reply →
        reply.addedIds.length = items.length ∧ reply.addedIds.Nodup ∧ ∀ id ∈ reply.addedIds,
          w₁.session.state.items[id]? = none ∧ id ∉ (w₀.issued P cfg evs).map Prod.fst ∧
          ∀ s q, q ∈ w₁.session.stores.get s → ¬ RecordOf id q := by
  refine ⟨fun hpanic => ?_, fun w₀ hopen cfg evs ev hfits => ⟨perform_of_fits (RunFits.last hfits), ?_⟩⟩
  · rcases hrun : (openSession P persistent).run.run w with ⟨r, w'⟩
    rw [hrun] at hpanic
    cases hpanic
    exact hlast ((open_loaded.error hrun).2 rfl)
  · intro scope items reply hop hok
    obtain ⟨-, hstores, hloaded, -⟩ := open_loaded.ok hopen
    have hrecords := records_run P cfg (hloaded.recordsBelow hstores) (tidy_open hopen) evs
    have htidy : Tidy (w₀.run P cfg evs).now (w₀.run P cfg evs).session.state := (tidy_open hopen).run
    obtain ⟨hadm, hids⟩ := perform_added hop hok
    rw [hids]
    refine ⟨idRange_length .., idRange_nodup hadm.room, fun id hid => ?_⟩
    have hlow := ((mem_idRange hadm.room).mp hid).1
    refine ⟨?_, fun hissued => ?_, fun s q hq hrecord => ?_⟩
    · cases hlive : (w₀.run P cfg evs).session.state.items[id]? with
      | none => rfl
      | some e => exact absurd (htidy.fresh id e hlive) (not_lt.mpr hlow)
    · obtain ⟨p, hp, rfl⟩ := List.mem_map.mp hissued
      exact absurd (issued_lt P cfg w₀ evs p hp) (not_lt.mpr hlow)
    · exact absurd (hrecords s q id hq hrecord) (not_lt.mpr hlow)

/-- A batch after an `add`. -/
theorem issued_ids_fresh_batch :
    let w₁ := World.start.run notePlatform (manual none) [⟨.add .minor note, [], []⟩]
    let ev : Event := ⟨.addBatch .major [note, note], [], []⟩
    (w₁.perform notePlatform (manual none) ev).1 = .ok (.ids [⟨1⟩, ⟨2⟩]) ∧ ∀ id ∈ [⟨1⟩, ⟨2⟩],
      w₁.session.state.items[id]? = none ∧
      id ∉ (World.start.issued notePlatform (manual none) [⟨.add .minor note, [], []⟩]).map Prod.fst ∧
      ∀ s q, q ∈ w₁.session.stores.get s → ¬ RecordOf id q := by
  intro w₁ ev
  have hlast : ¬ Overfull notePlatform World.start.session.stores := by
    rintro ⟨-, s, loaded, id, item, hload, hmem, -⟩
    obtain ⟨q, hq, -⟩ := load_owned hload hmem
    simp [World.start] at hq
  have hopen : (openSession notePlatform (.const true)).run.run World.start = (.ok (), World.start) := rfl
  have hok : (w₁.perform notePlatform (manual none) ev).1 = .ok (.ids [⟨1⟩, ⟨2⟩]) := rfl
  refine ⟨hok, (((issued_ids_fresh notePlatform (.const true) World.start hlast).2 World.start hopen (manual none)
    [⟨.add .minor note, [], []⟩] ev ⟨fun _ _ h _ => ?_, fun _ _ h _ => ?_, trivial⟩).2 .major [note, note] _ rfl hok).2.2⟩
  · cases h
    decide
  · cases h
    decide +kernel

/-- The world that has the record of the last id in the enduring store. -/
def lastRecord : World :=
  { World.start with session := { World.start.session with
      stores := ⟨Store.empty.insertAll (encode notePlatform ⟨18446744073709551615⟩ note), .empty, .empty⟩ } }

/-- After the last id there is no next one. -/
theorem open_panics_after_last_id :
    (load notePlatform (lastRecord.session.stores.get .enduring)).toOption.map (·.map (·.1)) =
        some [⟨18446744073709551615⟩] ∧
      ((openSession notePlatform (.const true)).run.run lastRecord).1 = .error .panic :=
  ⟨by decide +kernel, by decide +kernel⟩

end Semanticore.Context
