import Semanticore.Context.Lemmas.Sweep
import Semanticore.Context.Coherence

/-!
# Bounds hold

Every operation that lets items into a tier enforces the bounds from that tier on.
-/

namespace Semanticore.Context
open Semanticore.Core Semanticore.Lib

variable {P : Platform} {cfg : Settings} {w w' : World} {σ τ : Session} {st st' : State} {op : Op}
  {scope target s : ContextScope} {ids : List ItemId}

/-- Each bounded tier is within its bound. -/
def Fits (cfg : Settings) (st : State) : Prop := ∀ s, Within cfg st s

theorem Fits.mono (h : Fits cfg st) (hsub : ∀ s id, st'.scopeOf id = some s → st.scopeOf id = some s) :
    Fits cfg st' := fun s => (h s).mono (hsub s)

/-- An operation that adds items only to `scope` and colder tiers, and then sweeps from `scope` on. -/
theorem Fits.sweep (hfit : Fits cfg st) (h : Sweep P cfg scope.andColder σ τ)
    (hwarm : ∀ s, scope < s → ∀ id, σ.state.scopeOf id = some s → st.scopeOf id = some s) : Fits cfg τ.state := by
  obtain ⟨hwithin, hsub⟩ := h.within
  intro s
  by_cases hs : s ≤ scope
  · exact hwithin s hs
  · have hlt := not_le.mp hs
    exact (hfit s).mono fun id hid => hwarm s hlt id (hsub s hlt id hid)

/-! ## Operation by operation -/

theorem Fits.added {items : List ContextItem} {now : Instant} (hfit : Fits cfg σ.state) (hadm : Admissible σ items)
    (h : Sweep P cfg scope.andColder (σ.added P scope items now) τ) : Fits cfg τ.state :=
  hfit.sweep h fun _ hlt _ hid => scopeOf_added hadm hlt.ne' hid

theorem scopeOf_moveItems_ne {arrival : Arrival} {id : ItemId} (hnodup : ids.Nodup) (hne : s ≠ target)
    (h : (σ.moveItems P ids target arrival).state.scopeOf id = some s) : σ.state.scopeOf id = some s := by
  rw [scopeOf_moveItems hnodup] at h
  split at h
  · obtain ⟨-, -, heq⟩ := Option.map_eq_some_iff.mp h
    exact (hne heq.symm).elim
  · exact h

theorem scopeOf_dropItems_some {id : ItemId} (hnodup : ids.Nodup)
    (h : (σ.dropItems P ids).state.scopeOf id = some s) : σ.state.scopeOf id = some s := by
  rw [scopeOf_dropItems hnodup] at h
  split at h
  · cases h
  · exact h

theorem scopeOf_evictVictims_some {id : ItemId} (hnodup : ids.Nodup) (hne : scope.colder ≠ some s)
    (h : (σ.evictVictims P cfg scope ids).state.scopeOf id = some s) : σ.state.scopeOf id = some s := by
  by_cases hid : id ∈ ids
  · exact (hne (scopeOf_evictVictims hnodup hid h)).elim
  · rwa [scopeOf_evictVictims_of_not_mem hnodup hid] at h

theorem Fits.evicted {n : Nat} {criteria : EvictionCriteria} (hfit : Fits cfg σ.state)
    (h : Evicted P cfg scope n σ τ criteria) : Fits cfg τ.state := by
  cases criteria with
  | items ids =>
      obtain ⟨-, -, rfl⟩ := h
      exact hfit.mono fun _ _ hid => scopeOf_dropItems_some (nodup_eraseDups ids) hid
  | demote ids target =>
      obtain ⟨-, -, -, hsweep⟩ := h
      exact hfit.sweep hsweep fun _ hlt _ hid => scopeOf_moveItems_ne (nodup_eraseDups ids) hlt.ne' hid
  | policy count =>
      obtain ⟨now, -, hsweep⟩ := h
      have hnodup : (chosenVictims cfg σ.state now scope count).Nodup := chosenVictims_nodup
      cases hcolder : scope.colder with
      | none =>
          rw [ContextScope.andColder_of_none hcolder] at hsweep
          cases Sweep.nil_iff.mp hsweep
          refine hfit.mono fun s id hid => ?_
          have hid' := scopeOf_evictVictims_some hnodup (by simp [hcolder]) hid
          exact hid'
      | some colder =>
          rw [ContextScope.andColder_of_some hcolder, List.tail_cons] at hsweep
          refine hfit.sweep hsweep fun s hlt id hid => ?_
          have hid' := scopeOf_evictVictims_some hnodup (by simpa [hcolder] using hlt.ne) hid
          exact hid'

theorem Fits.autoPromoted {now : Instant} (hfit : Fits cfg σ.state)
    (h : Sweep P cfg (σ.promotedInto cfg now) (σ.autoPromoted P cfg now) τ) : Fits cfg τ.state := by
  unfold Session.promotedInto at h
  split_ifs at h with hE hM
  · exact hfit.sweep h fun s hlt => absurd hlt (by cases s <;> decide)
  · simp only [not_not] at hE
    refine hfit.sweep h fun s hlt id hid => ?_
    have hid' := scopeOf_moveItems_ne (promotable_nodup _ _ _) hlt.ne' hid
    simpa [Session.moveItems, hE] using hid'
  · simp only [not_not] at hE hM
    cases Sweep.nil_iff.mp h
    refine hfit.mono fun s id hid => ?_
    rw [Session.autoPromoted, hE, hM] at hid
    exact hid

/-- An operation that returns, and does so without a failing transaction, keeps the bounds. -/
theorem op_fits (P : Platform) (op : Op) (hfit : Fits cfg w.session.state) :
    Runs Later (op.exec P cfg) w (fun _ w' => Fits cfg w'.session.state) (Halts P cfg op w) := by
  cases op with
  | add scope item =>
      refine Runs.map (add_spec.mono (fun id w' _ h => ?_) fun _ _ _ h => h)
      obtain ⟨-, hadm, now, -, -, hsweep, -⟩ := h
      exact hfit.added hadm hsweep
  | addBatch scope items =>
      refine Runs.map ((addBatch_spec (.addBatch scope items) rfl).mono (fun id w' _ h => ?_) fun _ _ _ h => h)
      obtain ⟨-, hadm, now, -, -, hsweep, -⟩ := h
      exact hfit.added hadm hsweep
  | remove scope id =>
      refine Runs.map (remove_spec.mono (fun found w' _ h => ?_) fun _ _ _ h => h)
      cases found with
      | false => exact h.2 ▸ hfit
      | true =>
          rw [if_pos rfl] at h
          rw [h.2]
          refine hfit.mono fun s id' hid => ?_
          rw [State.scopeOf_eq_place, Session.place_removed] at hid
          split at hid
          · cases hid
          · rwa [State.scopeOf_eq_place]
  | query q =>
      refine Runs.map (query_spec.mono (fun r w' _ h => ?_) fun _ _ _ h => h)
      obtain ⟨pattern, now, -, -, -, -, -, -, hrest⟩ := h
      have hanswered : Fits cfg (w.session.answered cfg now ((w.session.hits P q pattern).map (·.1))).state :=
        hfit.mono fun s id hid => by rwa [scopeOf_answered] at hid
      split at hrest
      · exact hanswered.autoPromoted hrest.2
      · exact hrest.2 ▸ hanswered
  | promote ids source target =>
      refine Runs.map (promote_spec.mono (fun n w' _ h => ?_) fun _ _ _ h => h)
      obtain ⟨-, -, h⟩ := h
      split at h
      · exact h.2 ▸ hfit
      · exact hfit.sweep h.2.1 fun _ hlt _ hid => scopeOf_moveItems_ne (nodup_eraseDups ids) hlt.ne' hid
  | evict scope criteria => exact Runs.map (evict_spec.mono (fun n w' _ h => hfit.evicted h.1) fun _ _ _ h => h)
  | reason scope => exact Runs.map (Runs.exit (.refused (by simp [nyi]) rfl))
  | validateShapes data shapes => exact Runs.map (Runs.exit (.refused (by simp) rfl))
  | evaluateDatalog scope => exact Runs.map (Runs.exit (.refused (by simp) rfl))

theorem Fits.step {ev : Event} (hfit : Fits cfg w.session.state) (hclean : ev.Clean) :
    Fits cfg (w.step P cfg ev).session.state := by
  have hprep : Fits cfg (w.prepare ev).session.state := hfit
  refine (op_fits P ev.op hprep).final (C := fun w' => Fits cfg w'.session.state)
    (fun _ _ _ h => h) fun h w' _ hhalts => ?_
  cases hhalts with
  | refused he hsame => exact hsame ▸ hfit
  | overflow hop hfull hsame => exact hsame ▸ hfit
  | failed hunclean hbegin hends => exact (hunclean hclean).elim

/-- A run without storage failures that starts within the bounds stays within them, from any Session whatever. -/
theorem bounds_hold (P : Platform) (cfg : Settings) (w : World) (evs : List Event)
    (hstart : ∀ s bound, cfg.bounds.get s = some bound → w.session.state.itemCount s ≤ bound)
    (hclean : ∀ ev ∈ evs, ev.Clean) :
    ∀ s bound, cfg.bounds.get s = some bound → (w.run P cfg evs).session.state.itemCount s ≤ bound := by
  have hfit : Fits cfg (w.run P cfg evs).session.state := by
    have hw : Fits cfg w.session.state := hstart
    clear hstart
    induction evs generalizing w with
    | nil => exact hw
    | cons ev evs ih =>
        exact ih (w.step P cfg ev) (fun ev hev => hclean ev (by simp [hev])) (hw.step (hclean ev (by simp)))
  exact hfit

theorem itemCount_empty (s : ContextScope) : World.start.session.state.itemCount s = 0 := by cases s <;> rfl

/-- Adding to and promoting within tiers bounded by two, one and one. -/
theorem bounds_hold_three_tiers :
    let cfg : Settings := { bounds := ⟨some 2, some 1, some 1⟩, evictionPolicy := .lfu, demotionTarget := .nextColder,
                            promotion := .default }
    let evs : List Event := [⟨.addBatch .enduring [note, note, note], [], []⟩, ⟨.add .minor note, [], []⟩,
      ⟨.promote [⟨3⟩] .minor .major, [], [1]⟩]
    let st := (World.start.run notePlatform cfg evs).session.state
    (ContextScope.all.map st.itemCount) = [2, 1, 1] ∧
      ∀ s bound, cfg.bounds.get s = some bound → st.itemCount s ≤ bound :=
  ⟨by decide +kernel, bounds_hold notePlatform _ World.start _ (fun s _ _ => (itemCount_empty s).le.trans (Nat.zero_le _))
    (by simp [Event.Clean])⟩

end Semanticore.Context
