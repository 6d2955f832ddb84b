import Semanticore.Context.Coherence
import Semanticore.Context.FreshIds

/-!
# Calls that are refused and calls that panic

Every check of a call comes before its first effect, so a refused call leaves the Session as it was. The lookups that come
later are of ids that were checked or selected before, without repeats, so they succeed.
-/

namespace Semanticore.Context
open Semanticore.Core Semanticore.Lib

/-- The ids an operation lists, and the tier it wants them in. -/
def Op.listed : Op → Option (ContextScope × List ItemId)
  | .promote ids source _ => some (source, ids)
  | .evict scope (.items ids) => some (scope, ids)
  | .evict scope (.demote ids _) => some (scope, ids)
  | _ => none

variable {P : Platform} {cfg : Settings} {w : World} {ev : Event} {m : Moment} {op : Op} {ids : List ItemId}
  {scope source target : ContextScope} {e : SessionError}

/-! ## Refusals -/

/-- A program that is refused before its first transaction. -/
def Refused {α : Type} (x : SessionM α) (m : Moment) : Prop :=
  ∃ e, e ≠ .storage ∧ Attempts x m [] (.error (.err e)) m

theorem Refused.bind {α β : Type} {x : SessionM α} {f : α → SessionM β} (h : Refused x m) : Refused (x >>= f) m := by
  obtain ⟨e, hne, hx⟩ := h
  exact ⟨e, hne, hx.bind_exit⟩

theorem Refused.map {α β : Type} {x : SessionM α} {g : α → β} (h : Refused x m) : Refused (g <$> x) m := by
  obtain ⟨e, hne, hx⟩ := h
  exact ⟨e, hne, hx.map_exit⟩

theorem refused_throw {α β : Type} {f : α → SessionM β} (hne : e ≠ .storage) :
    Refused (throw (.err e) >>= f) m := ⟨e, hne, Attempts.exit.bind_exit⟩

theorem refused_checkInScope (h : ∃ id ∈ ids, m.session.state.scopeOf id ≠ some scope) :
    Refused (liftExcept (checkInScope m.session.state ids scope)) m := by
  obtain ⟨id, hid, hscope⟩ := h
  cases hcheck : checkInScope m.session.state ids scope with
  | ok us => exact (hscope ((checkInScope_ok.mp hcheck).2 id hid)).elim
  | error e => exact ⟨e, checkInScope_error hcheck, .exit⟩

theorem refused_promote (P : Platform) (cfg : Settings) (target : ContextScope)
    (h : ∃ id ∈ ids, m.session.state.scopeOf id ≠ some source) : Refused (promote P cfg ids source target) m := by
  unfold promote
  by_cases hlt : target < source
  · simp only [if_pos hlt]
    exact refused_throw (by simp)
  · simp only [if_neg hlt]
    exact (refused_checkInScope h).bind

theorem refused_evict_items (P : Platform) (cfg : Settings) (h : ∃ id ∈ ids, m.session.state.scopeOf id ≠ some scope) :
    Refused (evict P cfg scope (.items ids)) m := (refused_checkInScope h).bind

theorem refused_evict_demote (P : Platform) (cfg : Settings) (target : ContextScope)
    (h : ∃ id ∈ ids, m.session.state.scopeOf id ≠ some scope) : Refused (evict P cfg scope (.demote ids target)) m := by
  unfold evict
  by_cases hle : scope ≤ target
  · simp only [if_pos hle]
    exact refused_throw (by simp)
  · simp only [if_neg hle]
    exact (refused_checkInScope h).bind

/-- An operation that lists an id outside the tier it wants it in is refused. -/
theorem refused_listed (P : Platform) (cfg : Settings) (hop : op.listed = some (scope, ids))
    (h : ∃ id ∈ ids, m.session.state.scopeOf id ≠ some scope) : Refused (op.exec P cfg) m := by
  unfold Op.listed at hop
  split at hop
  · cases hop
    exact (refused_promote P cfg _ h).map
  · cases hop
    exact (refused_evict_items P cfg h).map
  · cases hop
    exact (refused_evict_demote P cfg _ h).map
  · cases hop

/-- An operation that found nothing to remove leaves the Session as it was. -/
theorem notFound_spec (op : Op) (w : World) : Runs Later (op.exec P cfg) w
    (fun reply w' => reply = .removed false → w'.session = w.session) (Halts P cfg op w) := by
  cases op with
  | add scope item => exact Runs.map (add_spec.mono (fun _ _ _ _ h => by cases h) fun _ _ _ h => h)
  | addBatch scope items => exact Runs.map ((addBatch_spec _ rfl).mono (fun _ _ _ _ h => by cases h) fun _ _ _ h => h)
  | remove scope id =>
      refine Runs.map (remove_spec.mono (fun found w' _ h hfound => ?_) fun _ _ _ h => h)
      cases hfound
      exact h.2
  | query q => exact Runs.map (query_spec.mono (fun _ _ _ _ h => by cases h) fun _ _ _ h => h)
  | promote ids source target => exact Runs.map (promote_spec.mono (fun _ _ _ _ h => by cases h) fun _ _ _ h => h)
  | evict scope criteria => exact Runs.map (evict_spec.mono (fun _ _ _ _ h => by cases h) fun _ _ _ h => h)
  | reason scope => exact Runs.map (Runs.exit (.refused (by simp [nyi]) rfl))
  | validateShapes data shapes => exact Runs.map (Runs.exit (.refused (by simp) rfl))
  | evaluateDatalog scope => exact Runs.map (Runs.exit (.refused (by simp) rfl))

/-- A call that returns an error, but not one of the storage, and a removal that finds nothing leave the index with all
statistics, `next_id`, the counters and the stores as they were. A promotion, a dropping and a demotion of listed ids are
refused if one of the ids is no live item of the source tier. -/
theorem refused_unchanged (P : Platform) (cfg : Settings) (w : World) (ev : Event) :
    (∀ e, e ≠ .storage → (w.perform P cfg ev).1 = .error (.err e) →
      (w.step P cfg ev).session.state = w.session.state ∧ (w.step P cfg ev).session.stores = w.session.stores) ∧
    ((w.perform P cfg ev).1 = .ok (.removed false) →
      (w.step P cfg ev).session.state = w.session.state ∧ (w.step P cfg ev).session.stores = w.session.stores) ∧
    ∀ scope ids, ev.op.listed = some (scope, ids) → (∃ id ∈ ids, w.session.state.scopeOf id ≠ some scope) →
      ∃ e, e ≠ .storage ∧ (w.perform P cfg ev).1 = .error (.err e) := by
  have hsame : (w.step P cfg ev).session = (w.prepare ev).session →
      (w.step P cfg ev).session.state = w.session.state ∧ (w.step P cfg ev).session.stores = w.session.stores := by
    intro h
    rw [h]
    exact ⟨rfl, rfl⟩
  refine ⟨fun e hne herror => hsame ?_, fun hremoved => hsame ?_, fun scope ids hop hid => ?_⟩
  · cases perform_error (op_spec P cfg ev.op (w.prepare ev)) herror with
    | refused he hsame => exact hsame
    | failed hunclean hbegin hends => exact (hne rfl).elim
  · exact perform_ok (notFound_spec ev.op (w.prepare ev)) hremoved rfl
  · obtain ⟨e, hne, hrefused⟩ := refused_listed (m := (w.prepare ev).moment) P cfg hop hid
    exact ⟨e, hne, (hrefused.perform_ends (stopped_eq_none.mpr fun _ _ => Nat.zero_le _)).1⟩

/-- Two ids of which the second is unknown are not promoted, and the first stays. -/
theorem refused_unchanged_unknown_id :
    let w := World.start.run notePlatform (manual none) [⟨.add .minor note, [], []⟩]
    let ev : Event := ⟨.promote [⟨0⟩, ⟨1⟩] .minor .major, [], []⟩
    (∃ e, e ≠ .storage ∧ (w.perform notePlatform (manual none) ev).1 = .error (.err e)) ∧
      (w.step notePlatform (manual none) ev).session.state = w.session.state := by
  intro w ev
  obtain ⟨hrefused, -, hlisted⟩ := refused_unchanged notePlatform (manual none) w ev
  obtain ⟨e, hne, herror⟩ := hlisted .minor [⟨0⟩, ⟨1⟩] rfl ⟨⟨1⟩, by simp, by decide +kernel⟩
  exact ⟨⟨e, hne, herror⟩, (hrefused e hne herror).1⟩

/-! ## Panics -/

/-- In every state a call panics exactly when it adds a batch that passes its checks and there are too few ids left for it,
and then before anything is looked up. So no lookup fails that the code assumes to succeed. -/
theorem panics_iff_out_of_ids (P : Platform) (cfg : Settings) (w : World) (ev : Event) :
    (w.perform P cfg ev).1 = .error .panic ↔ ∃ scope items, ev.op.batch = some (scope, items) ∧
      (∀ item ∈ items, validate w.session.state item = .ok ()) ∧
      2 ^ 64 ≤ w.session.state.nextId.toNat + items.length := by
  constructor
  · intro hpanic
    by_contra hnot
    refine perform_of_fits (fun scope items hop hvalid => ?_) hpanic
    by_contra hfull
    exact hnot ⟨scope, items, hop, hvalid, not_lt.mp hfull⟩
  · rintro ⟨scope, items, hop, hvalid, hfull⟩
    have hbatch : Attempts (addBatch P cfg scope items) (w.prepare ev).moment [] (.error .panic) (w.prepare ev).moment :=
      attempts_addBatch_full hvalid hfull
    exact ((attempts_add_refused hop hbatch).perform_ends (stopped_eq_none.mpr fun _ _ => Nat.zero_le _)).1

end Semanticore.Context
