import Semanticore.Context.Lemmas.Opening
import Semanticore.Context.Lemmas.Runs
import Semanticore.Context.Lifecycle

/-!
# Ids and times

Through calls, crashes and reopening, live ids stay below `next_id` and no item is touched in the future.
-/

namespace Semanticore.Context
open Semanticore.Core Semanticore.Lib

variable {P : Platform} {cfg : Settings} {σ τ : Session} {st st' : State} {w w' : World} {ev : Event} {t t' now : Instant}

/-- Live ids are below `next_id`, and no live item was touched after `t`. -/
structure Tidy (t : Instant) (st : State) : Prop where
  fresh : ∀ (id : ItemId) (e : Entry), st.items[id]? = some e → id.n.toNat < st.nextId.toNat
  past : ∀ (id : ItemId) (e : Entry), st.items[id]? = some e → e.lastTouch ≤ t

theorem Tidy.mono (h : Tidy t st) (hle : t ≤ t') : Tidy t' st := ⟨h.fresh, fun id e he => (h.past id e he).trans hle⟩

/-- Items may go, and stay as they were touched. -/
theorem Tidy.congr (h : Tidy t st) (hnext : st'.nextId = st.nextId)
    (hitems : ∀ (id : ItemId) (e' : Entry), st'.items[id]? = some e' →
      ∃ e : Entry, st.items[id]? = some e ∧ e'.lastTouch = e.lastTouch) : Tidy t st' := by
  refine ⟨fun id e' he' => ?_, fun id e' he' => ?_⟩
  · obtain ⟨e, he, -⟩ := hitems id e' he'
    exact hnext ▸ h.fresh id e he
  · obtain ⟨e, he, htouch⟩ := hitems id e' he'
    exact htouch ▸ h.past id e he

/-! ## Effects -/

theorem Tidy.added {scope : ContextScope} {items : List ContextItem} (h : Tidy t σ.state) (hle : t ≤ now)
    (hroom : σ.state.nextId.toNat + items.length < 2 ^ 64) : Tidy now (σ.added P scope items now).state := by
  have hentry : ∀ (id : ItemId) (e : Entry), (σ.added P scope items now).state.items[id]? = some e →
      id.n.toNat < σ.state.nextId.toNat + items.length ∧ e.lastTouch ≤ now := by
    intro id e he
    by_cases hid : id ∈ (σ.batch items).map Prod.fst
    · obtain ⟨⟨id', item⟩, hp, rfl⟩ := List.mem_map.mp hid
      rw [Session.items_added_of_mem hroom hp] at he
      cases he
      exact ⟨(Session.mem_batch_ids hroom hp).2, le_rfl⟩
    · rw [Session.items_added_of_not_mem hroom hid] at he
      exact ⟨(h.fresh id e he).trans_le (Nat.le_add_right ..), (h.past id e he).trans hle⟩
  exact ⟨fun id e he => Session.nextId_added hroom ▸ (hentry id e he).1, fun id e he => (hentry id e he).2⟩

theorem Tidy.access (h : Tidy now σ.state) (id : ItemId) : Tidy now (σ.access cfg now id).state := by
  unfold Session.access
  split
  · exact h
  · rename_i e he
    have htouch : (e.touch cfg now).lastTouch = now := by
      unfold Entry.touch
      split <;> rfl
    refine ⟨fun id' e' he' => ?_, fun id' e' he' => ?_⟩
    · rw [Session.items_touched] at he'
      split at he'
      · rename_i hid
        exact h.fresh id' e (hid ▸ he)
      · exact h.fresh id' e' he'
    · rw [Session.items_touched] at he'
      split at he'
      · cases he'
        exact htouch.le
      · exact h.past id' e' he'

theorem Tidy.answered (h : Tidy t σ.state) (hle : t ≤ now) (ids : List ItemId) :
    Tidy now (σ.answered cfg now ids).state := by
  have hloop : Tidy now (ids.foldl (Session.access cfg now) σ).state := by
    induction ids generalizing σ t with
    | nil => exact h.mono hle
    | cons id ids ih => exact ih ((h.mono hle).access id) le_rfl
  exact hloop.congr rfl fun _ e he => ⟨e, he, rfl⟩

theorem Tidy.act (h : Tidy t σ.state) (hact : Act P cfg σ τ) : Tidy t τ.state := by
  refine h.congr (nextId_act hact) fun id e' he' => ?_
  obtain ⟨e, he, hmoved⟩ := hact.entry he'
  refine ⟨e, he, ?_⟩
  rcases hmoved with rfl | ⟨target, arrival, rfl⟩ <;> rfl

theorem Tidy.ends (h : Tidy t σ.state) (hends : Ends P cfg σ τ) : Tidy t τ.state := by
  refine hends.keeps (I := fun σ => Tidy t σ.state) (fun hact h => h.act hact) ?_ h
  rintro _ _ ⟨_, _, _, _, _, rfl⟩ h
  exact h

theorem Tidy.begins {op : Op} (h : Tidy t σ.state) (hbegin : Begins P cfg t t' op σ τ) (hle : t ≤ t') :
    Tidy t' τ.state := by
  cases hbegin with
  | nothing => exact h.mono hle
  | added now hop hadm hfrom hto => exact (h.added hfrom hadm.room).mono hto
  | answered now ids hfrom hto => exact (h.answered hfrom ids).mono hto

/-! ## Lives -/

theorem now_le_step (P : Platform) (cfg : Settings) (w : World) (ev : Event) : w.now ≤ (w.step P cfg ev).now :=
  (op_spec P cfg ev.op (w.prepare ev)).final (C := fun w' => w.now ≤ w'.now) (fun _ _ hR _ => hR.2) fun _ _ hR _ => hR.2

theorem Tidy.step (h : Tidy w.now w.session.state) : Tidy (w.step P cfg ev).now (w.step P cfg ev).session.state := by
  obtain ⟨τ, hbegin, hends, -⟩ := step_spec P cfg w ev
  have hprep : Tidy w.now (w.prepare ev).session.state := h
  exact (hprep.begins hbegin (now_le_step P cfg w ev)).ends hends

theorem Tidy.run {evs : List Event} (h : Tidy w.now w.session.state) :
    Tidy (w.run P cfg evs).now (w.run P cfg evs).session.state := by
  induction evs generalizing w with
  | nil => exact h
  | cons ev evs ih => exact ih h.step

theorem tidy_open {persistent : Tiers Bool} (hopen : (openSession P persistent).run.run w = (.ok (), w')) :
    Tidy w'.now w'.session.state := by
  have hfound := (open_found.ok hopen).2
  exact ⟨hfound.fresh, hfound.past⟩

theorem tidy_start : Tidy World.start.now World.start.session.state :=
  ⟨fun id e he => by simp [World.start, State.empty] at he, fun id e he => by simp [World.start, State.empty] at he⟩

theorem Life.tidy {L : List (ItemId × ContextItem)} (h : Life P World.start L w) : Tidy w.now w.session.state := by
  induction h with
  | here => exact tidy_start
  | call cfg ev h ih => exact ih.step
  | crash cfg ev k fates elapsed h hopen ih => exact tidy_open hopen
  | close fates elapsed h hopen ih => exact tidy_open hopen

end Semanticore.Context
