import Semanticore.Context.Coherence
import Semanticore.Context.Lemmas.Attempts
import Semanticore.Context.Lemmas.Opening

/-!
# What the counters count

`queries_served`, `items_promoted` and `items_demoted` against what happened: the queries that returned a result and the
moves in the log. `promote`, `evict` and auto-promotion count their moves after the last of them, and `query` counts itself
before auto-promotion; a storage failure in between leaves the counters wrong.
-/

namespace Semanticore.Context
open Semanticore.Core Semanticore.Lib

/-! ## What happened -/

/-- How many marks are moves from a scope to another that `p` relates. -/
def movesOf (p : ContextScope → ContextScope → Bool) (marks : List Mark) : Nat :=
  marks.countP fun
    | .moved _ source target => p source target
    | .commit .. => false
    | .selected .. => false
    | .dropped _ => false

/-- How many times a scope became more durable. -/
def rises (marks : List Mark) : Nat := movesOf (fun source target => source < target) marks

/-- How many times a scope became less durable. -/
def falls (marks : List Mark) : Nat := movesOf (fun source target => target < source) marks

/-- The result is that of a query. -/
def answeredQuery : Except Halt Reply → Bool
  | .ok (.result _) => true
  | _ => false

namespace World

variable (P : Platform) (cfg : Settings)

/-- The queries of a run that returned a result. -/
def servedBy (w : World) : List Event → Nat
  | [] => 0
  | ev :: evs => (if answeredQuery (w.perform P cfg ev).1 then 1 else 0) + (w.step P cfg ev).servedBy evs

def risesBy (w : World) : List Event → Nat
  | [] => 0
  | ev :: evs => rises (w.step P cfg ev).session.log + (w.step P cfg ev).risesBy evs

def fallsBy (w : World) : List Event → Nat
  | [] => 0
  | ev :: evs => falls (w.step P cfg ev).session.log + (w.step P cfg ev).fallsBy evs

/-! ## Where the counters lag -/

/-- A loop that moves `n` items and then counts them fails before the first of them has moved, or not at all. -/
def CountsMoves (fates : List Fate) (n : Nat) : Prop := ∀ j, firstFail fates = some j → j < 2 ∨ 2 * n ≤ j

/-- No storage transaction fails where a counter is behind or ahead of what happened: a call that moves the items it is
given fails before the first move or after the last, and a query fails before it is counted or not at all. -/
def CountsRight (w : World) (ev : Event) : Prop :=
  match ev.op with
  | .promote ids source target =>
      source < target → (∀ id ∈ ids, w.session.state.scopeOf id = some source) → CountsMoves ev.fates ids.eraseDups.length
  | .evict scope (.demote ids target) =>
      target < scope → (∀ id ∈ ids, w.session.state.scopeOf id = some scope) → CountsMoves ev.fates ids.eraseDups.length
  | .query q => ∀ pattern, queryPattern q = .ok pattern → ∀ j, firstFail ev.fates = some j →
      j < q.scopes.scopes.length ∨
        q.scopes.scopes.length + ((w.prepare ev).moment.queryPoints P cfg q pattern).length ≤ j
  | _ => True

/-- Every step of a run counts right. -/
def RunCountsRight (w : World) : List Event → Prop
  | [] => True
  | ev :: evs => w.CountsRight P cfg ev ∧ (w.step P cfg ev).RunCountsRight evs

end World

/-! ## The log and the counters -/

/-- The counters of moves less the moves in the log. -/
def Session.drift (σ : Session) : ℤ × ℤ :=
  (σ.state.stats.itemsPromoted - rises σ.log, σ.state.stats.itemsDemoted - falls σ.log)

/-- Moves were counted as they were made, and no query was counted. -/
def Steady (σ τ : Session) : Prop :=
  τ.drift = σ.drift ∧ τ.state.stats.queriesServed = σ.state.stats.queriesServed

instance : Std.Refl Steady := ⟨fun _ => ⟨rfl, rfl⟩⟩

instance : IsTrans Session Steady := ⟨fun _ _ _ h h' => ⟨h'.1.trans h.1, h'.2.trans h.2⟩⟩

variable {P : Platform} {cfg : Settings} {σ τ : Session} {w : World} {ev : Event} {evs : List Event} {id : ItemId}
  {ids : List ItemId} {e : Entry} {scope source target : ContextScope} {arrival : Arrival}
  {p : ContextScope → ContextScope → Bool} {m : Moment}

@[simp] theorem movesOf_append (marks marks' : List Mark) : movesOf p (marks ++ marks') = movesOf p marks + movesOf p marks' :=
  List.countP_append

theorem movesOf_commit (σ : Session) (after : Store) : movesOf p (σ.commit scope after).log = movesOf p σ.log := by
  simp [Session.commit, movesOf]

theorem movesOf_moved : movesOf p (σ.moved P id e target arrival).log =
    movesOf p σ.log + if p e.scope target then 1 else 0 := by
  simp only [Session.moved, Session.note, Session.mapState, Session.deleted, Session.copied, Session.commit,
    movesOf_append]
  simp [movesOf, List.countP_cons]

theorem steady_commit (σ : Session) (scope : ContextScope) (after : Store) : Steady σ (σ.commit scope after) := by
  refine ⟨?_, rfl⟩
  unfold Session.drift rises falls
  rw [movesOf_commit, movesOf_commit]
  rfl

theorem steady_note {σ : Session} (mark : Mark) (h : ∀ p, movesOf p [mark] = 0) : Steady σ (σ.note mark) := by
  refine ⟨?_, rfl⟩
  simp only [Session.drift, rises, falls, Session.note, movesOf_append, h, Nat.add_zero]

theorem steady_selected (σ : Session) (now : Instant) (scope : ContextScope) (count : Nat) :
    Steady σ (σ.selected cfg now scope count) := steady_note _ fun _ => rfl

theorem steady_halfMove (h : HalfMove P σ τ) : Steady σ τ := by
  obtain ⟨id, e, target, -, -, rfl⟩ := h
  exact steady_commit ..

/-- An eviction counts the demotion it makes. -/
theorem steady_evicted (he : σ.state.items[id]? = some e) (hs : e.scope = scope) :
    Steady σ (σ.evictVictim P cfg scope id) := by
  unfold Session.evictVictim
  simp only [he]
  cases hcolder : evictionTarget cfg scope e.arrival with
  | some colder =>
      have hlt : colder < e.scope := hs ▸ evictionTarget_lt hcolder
      refine ⟨Prod.ext ?_ ?_, rfl⟩
      · show (σ.state.stats.itemsPromoted : ℤ) - rises (σ.moved P id e colder .demoted).log = _
        rw [rises, movesOf_moved, decide_eq_false hlt.le.not_gt]
        rfl
      · show ((σ.state.stats.itemsDemoted + 1 : ℕ) : ℤ) - falls (σ.moved P id e colder .demoted).log = _
        rw [falls, movesOf_moved, decide_eq_true hlt, if_pos rfl]
        simp only [Session.drift, falls]
        omega
  | none =>
      have hdeleted := steady_commit σ e.scope (deleteQuads P id (σ.stores.get e.scope))
      have hdropped : Steady (σ.deleted P id e.scope) (σ.dropped P id e) :=
        ⟨(steady_note (.dropped id) fun _ => rfl).1, rfl⟩
      exact Trans.trans hdeleted hdropped

theorem steady_evictVictim (scope : ContextScope) (id : ItemId) (w : World) (e : Entry)
    (he : w.session.state.items[id]? = some e) (hs : e.scope = scope) : Keeps Steady (evictVictim P cfg scope id) w := by
  refine Keeps.of_runs (evictVictim_spec he hs) (fun _ _ h => h ▸ steady_evicted he hs) fun _ _ h => ?_
  rcases h.left with hsame | hhalf
  · rw [hsame]
    exact Std.Refl.refl w.session
  · exact steady_halfMove hhalf

theorem steady_sweep (scopes : List ContextScope) : Keeps Steady (scopes.forM (enforceTier P cfg)) w :=
  keeps_sweep steady_selected fun s _ => steady_evictVictim s

theorem steady_swept (m : Moment) (scopes : List ContextScope) : Steady m.session (m.sweep P cfg scopes).session :=
  (attempts_sweep.of_keeps fun _ => steady_sweep scopes).2

theorem steady_dropItem : Keeps Steady (dropItem P id) w := by
  unfold dropItem
  apply runs_getState
  split
  · exact keeps_throw
  · refine Runs.bind (withWrite_frame (steady_commit · _)) fun _ w₁ _ _ => ?_
    exact (keeps_modify ⟨rfl, rfl⟩).bind fun _ _ => keeps_modify (steady_note _ fun _ => rfl)

/-! ## Operations that count as they go -/

theorem steady_addBatch {items : List ContextItem} : Keeps Steady (addBatch P cfg scope items) w := by
  unfold addBatch
  apply runs_getState
  refine (Keeps.forM fun _ _ => Runs.keeps liftExcept_frame).bind fun _ w₀ => ?_
  refine Runs.bind checkedAdd_frame fun nextId w₁ _ _ => ?_
  refine Runs.bind (withWrite_frame (steady_commit · _)) fun _ w₂ _ _ => ?_
  refine Runs.bind instantNow_frame fun now w₃ _ _ => ?_
  exact (keeps_modify ⟨rfl, rfl⟩).bind fun _ _ => (steady_sweep _).bind fun _ _ => keeps_ret

theorem steady_add {item : ContextItem} : Keeps Steady (add P cfg scope item) w := by
  unfold add
  refine steady_addBatch.bind fun ids w' => ?_
  split
  · exact keeps_ret
  · exact keeps_throw

theorem steady_remove : Keeps Steady (remove P scope id) w := by
  unfold remove
  apply runs_getState
  split
  · exact keeps_ret
  · refine Runs.bind (withWrite_frame (steady_commit · _)) fun _ w₁ _ _ => ?_
    exact (keeps_modify ⟨rfl, rfl⟩).bind fun _ _ => keeps_ret

theorem steady_evictItems : Keeps Steady (evict P cfg scope (.items ids)) w := by
  unfold evict
  apply runs_getState
  refine Runs.bind liftExcept_frame fun us w₀ _ _ => ?_
  exact (Keeps.forM fun _ _ => steady_dropItem).bind fun _ _ => keeps_ret

theorem steady_evictPolicy {count : Nat} : Keeps Steady (evict P cfg scope (.policy count)) w := by
  unfold evict
  refine Runs.bind (victims_frame steady_selected) fun us w₀ _ h₀ => ?_
  refine (keeps_evictVictims (steady_evictVictim scope) h₀).bind fun _ w₁ => ?_
  split
  · exact (steady_sweep _).bind fun _ _ => keeps_ret
  · exact keeps_ret

/-! ## Operations that count at the end -/

theorem stats_moveItems (ids : List ItemId) : (σ.moveItems P ids target arrival).state.stats = σ.state.stats := by
  unfold Session.moveItems
  induction ids generalizing σ with
  | nil => rfl
  | cons id ids ih =>
      rw [List.foldl_cons, ih]
      unfold Session.moveItem
      split <;> rfl

theorem movesOf_moveItems (hnodup : ids.Nodup)
    (hids : ∀ id ∈ ids, ∃ e, σ.state.items[id]? = some e ∧ e.scope = source) :
    movesOf p (σ.moveItems P ids target arrival).log = movesOf p σ.log + if p source target then ids.length else 0 := by
  unfold Session.moveItems
  induction ids generalizing σ with
  | nil => simp
  | cons id ids ih =>
      obtain ⟨hid, hnodup⟩ := List.nodup_cons.mp hnodup
      obtain ⟨e, he, rfl⟩ := hids id (by simp)
      rw [List.foldl_cons, ih hnodup, Session.moveItem_of_live he, movesOf_moved, List.length_cons]
      · split <;> omega
      · intro id' hid'
        rw [Session.items_moveItem_ne (show id ≠ id' from fun heq => hid (heq ▸ hid'))]
        exact hids id' (by simp [hid'])

/-- Moves from one scope to another, counted. -/
theorem steady_shifted (P : Platform) (target : ContextScope) (arrival : Arrival) (hnodup : ids.Nodup)
    (hids : ∀ id ∈ ids, ∃ e, σ.state.items[id]? = some e ∧ e.scope = source) :
    Steady σ ((σ.moveItems P ids target arrival).counted 0 (if source < target then ids.length else 0)
      (if target < source then ids.length else 0)) := by
  have hmoves (p : ContextScope → ContextScope → Bool) : movesOf p (σ.moveItems P ids target arrival).log = _ :=
    movesOf_moveItems hnodup hids
  have hup := hmoves fun source target => source < target
  have hdown := hmoves fun source target => target < source
  have hstats : (σ.moveItems P ids target arrival).state.stats = _ := stats_moveItems ids
  simp only [decide_eq_true_eq] at hup hdown
  refine ⟨Prod.ext ?_ ?_, ?_⟩
  · simp only [Session.drift, Session.counted, Session.mapState, hstats, rises, hup]
    push_cast
    ring
  · simp only [Session.drift, Session.counted, Session.mapState, hstats, falls, hdown]
    push_cast
    ring
  · show (σ.moveItems P ids target arrival).state.stats.queriesServed + 0 = _
    rw [hstats, Nat.add_zero]

theorem steady_movePoints (hτ : τ ∈ σ.movePoints P target id) : Steady σ τ := by
  unfold Session.movePoints at hτ
  split at hτ
  · cases hτ
  · rcases List.mem_cons.mp hτ with rfl | hτ
    · exact Std.Refl.refl τ
    · cases List.mem_singleton.mp hτ
      exact steady_commit ..

theorem length_movePoints (he : σ.state.items[id]? = some e) : (σ.movePoints P target id).length = 2 := by
  simp only [Session.movePoints, he, List.length_cons, List.length_nil]

theorem length_along_move (P : Platform) (arrival : Arrival) (h : Movable target ids σ) :
    (along (Session.movePoints P target) (fun σ id => σ.moveItem P target arrival id) σ ids).length = 2 * ids.length := by
  induction ids generalizing σ with
  | nil => rfl
  | cons id ids ih =>
      obtain ⟨e, he, -⟩ := h.2 id (by simp)
      simp only [along, List.length_append, length_movePoints he, ih (h.next P arrival), List.length_cons]
      omega

/-- A call that moves items, counts them and enforces bounds is steady if it counts right. -/
theorem steady_shiftPoints {j : Nat} {promoted demoted : Nat} (h : Movable target ids m.session)
    (hshifted : Steady m.session (m.shifted P ids target arrival promoted demoted).session)
    (hj : j < 2 ∨ 2 * ids.length ≤ j) (hτ : (m.shiftPoints P cfg ids target arrival promoted demoted)[j]? = some τ) :
    Steady m.session τ := by
  have hlength := length_along_move P arrival h
  unfold Moment.shiftPoints at hτ
  by_cases hfirst : j < 2 * ids.length
  · rw [List.getElem?_append_left (hlength.symm ▸ hfirst)] at hτ
    cases ids with
    | nil => exact absurd hfirst (Nat.not_lt_zero j)
    | cons id ids =>
        obtain ⟨e, he, -⟩ := h.2 id (by simp)
        have hj : j < (m.session.movePoints P target id).length := by
          rw [length_movePoints he]
          simp only [List.length_cons] at hj hfirst
          omega
        rw [along, List.getElem?_append_left hj] at hτ
        exact steady_movePoints (List.mem_of_getElem? hτ)
  · rw [List.getElem?_append_right (hlength.symm ▸ not_lt.mp hfirst)] at hτ
    exact Trans.trans hshifted ((attempts_sweep.of_keeps fun _ => steady_sweep _).1 τ (List.mem_of_getElem? hτ))

theorem steady_promote_refused
    (h : ¬ (source < target ∧ ∀ id ∈ ids, w.session.state.scopeOf id = some source)) :
    Keeps Steady (promote P cfg ids source target) w := by
  unfold promote
  by_cases hlt : target < source
  · simp only [if_pos hlt]
    exact keeps_throw_bind
  simp only [if_neg hlt]
  apply runs_getState
  cases hcheck : checkInScope w.session.state ids source with
  | error e => exact keeps_throw_bind
  | ok us =>
      have heq : target = source := by
        by_contra hne
        exact h ⟨lt_of_le_of_ne (not_lt.mp hlt) (Ne.symm hne), (checkInScope_ok.mp hcheck).2⟩
      simp only [if_pos heq]
      exact Runs.bind liftExcept_frame fun _ _ _ _ => keeps_ret

theorem steady_demote_refused
    (h : ¬ (target < scope ∧ ∀ id ∈ ids, w.session.state.scopeOf id = some scope)) :
    Keeps Steady (evict P cfg scope (.demote ids target)) w := by
  unfold evict
  by_cases hle : scope ≤ target
  · simp only [if_pos hle]
    exact keeps_throw_bind
  simp only [if_neg hle]
  apply runs_getState
  cases hcheck : checkInScope w.session.state ids scope with
  | error e => exact keeps_throw_bind
  | ok us => exact (h ⟨not_le.mp hle, (checkInScope_ok.mp hcheck).2⟩).elim

/-! ## Steps -/

/-- What a call that had the result `r` did to the counters: they tell its moves, and whether it is a query that
returned. -/
def Counted (σ : Session) (r : Except Halt Reply) (τ : Session) : Prop :=
  τ.drift = σ.drift ∧ τ.state.stats.queriesServed = σ.state.stats.queriesServed + if answeredQuery r then 1 else 0

theorem Steady.counted {r : Except Halt Reply} (h : Steady σ τ) (hr : answeredQuery r = false) : Counted σ r τ :=
  ⟨h.1, by rw [hr]; exact h.2⟩

theorem counted_of_keeps {α : Type} {x : SessionM α} {f : α → Reply} (hf : ∀ a, answeredQuery (.ok (f a)) = false)
    (h : Keeps Steady x w) : Counted w.session ((f <$> x).run.run w).1 ((f <$> x).run.run w).2.session := by
  have hmap : Runs (Over Steady) (f <$> x) w (fun reply _ => answeredQuery (.ok reply) = false) fun _ _ => True :=
    Runs.map (h.mono (fun a _ _ _ => hf a) fun _ _ _ h => h)
  refine hmap.result (C := fun r w' => Counted w.session r w'.session) (fun reply w' hR hreply => ?_) fun e w' hR _ => ?_
  · have hsteady : Steady w.session w'.session := hR
    exact hsteady.counted hreply
  · have hsteady : Steady w.session w'.session := hR
    exact hsteady.counted rfl

theorem counted_of_attempts {points : List Session} {r : Except Halt Reply}
    (h : Attempts (ev.op.exec P cfg) (w.prepare ev).moment points r m)
    (hfail : ∀ j τ, firstFail ev.fates = some j → points[j]? = some τ → Steady (w.prepare ev).session τ)
    (hend : Counted (w.prepare ev).session r m.session) :
    Counted (w.prepare ev).session (w.perform P cfg ev).1 (w.step P cfg ev).session := by
  cases hs : stopped ev.fates points with
  | some τ =>
      obtain ⟨j, hj, hτ⟩ := stopped_eq_some.mp hs
      obtain ⟨hresult, hsession⟩ := h.perform_fails hs
      rw [hresult, hsession]
      exact (hfail j τ hj hτ).counted rfl
  | none =>
      obtain ⟨hresult, hsession⟩ := h.perform_ends hs
      rw [hresult, hsession]
      exact hend

/-- A call that moves the items it is given, if it counts right. -/
theorem counted_of_shift {promoted demoted n : Nat} {f : Nat → Reply} (hf : ∀ n, answeredQuery (.ok (f n)) = false)
    (hmovable : Movable target ids (w.prepare ev).session)
    (h : Attempts (ev.op.exec P cfg) (w.prepare ev).moment
      ((w.prepare ev).moment.shiftPoints P cfg ids target arrival promoted demoted) (.ok (f n))
      (((w.prepare ev).moment.shifted P ids target arrival promoted demoted).sweep P cfg target.andColder))
    (hshifted : Steady (w.prepare ev).session ((w.prepare ev).moment.shifted P ids target arrival promoted demoted).session)
    (hright : World.CountsMoves ev.fates ids.length) :
    Counted (w.prepare ev).session (w.perform P cfg ev).1 (w.step P cfg ev).session := by
  refine counted_of_attempts h (fun j τ hj hτ => ?_) ?_
  · exact steady_shiftPoints (m := (w.prepare ev).moment) hmovable hshifted (hright j hj) hτ
  · have hboth : Steady (w.prepare ev).session (((w.prepare ev).moment.shifted P ids target arrival promoted demoted).sweep
      P cfg target.andColder).session := Trans.trans hshifted (steady_swept _ _)
    exact hboth.counted (hf n)

/-! ## Queries -/

theorem steady_accesses (now : Instant) (ids : List ItemId) : Steady σ (ids.foldl (Session.access cfg now) σ) := by
  induction ids generalizing σ with
  | nil => exact Std.Refl.refl σ
  | cons id ids ih =>
      have hone : Steady σ (σ.access cfg now id) := by
        unfold Session.access
        split <;> exact ⟨rfl, rfl⟩
      exact Trans.trans hone ih

theorem steady_autoPromoted (now : Instant) : Steady σ (σ.autoPromoted P cfg now) := by
  have hscope (s target : ContextScope) (hs : target.colder = some s) :
      ∀ id ∈ promotable cfg σ.state now target, ∃ e, σ.state.items[id]? = some e ∧ e.scope = s := by
    intro id hid
    obtain ⟨e, he, htarget⟩ := mem_promotable.mp hid
    exact ⟨e, he, Option.some.inj ((promotionTarget_colder htarget).symm.trans hs)⟩
  have hmajor : ∀ id ∈ promotable cfg σ.state now .major, ∃ e,
      (σ.moveItems P (promotable cfg σ.state now .enduring) .enduring .promoted).state.items[id]? = some e ∧
        e.scope = .minor := by
    intro id hid
    obtain ⟨e, he, hs⟩ := hscope .minor .major rfl id hid
    have hnot : id ∉ promotable cfg σ.state now .enduring := fun hE => by
      obtain ⟨e', he', hs'⟩ := hscope .major .enduring rfl id hE
      cases he.symm.trans he'
      cases hs.symm.trans hs'
    rw [Session.items_moveItems (promotable_nodup _ _ _), if_neg hnot]
    exact ⟨e, he, hs⟩
  have hmoves (p : ContextScope → ContextScope → Bool) : movesOf p (σ.autoPromoted P cfg now).log = movesOf p σ.log +
      (if p .major .enduring then (promotable cfg σ.state now .enduring).length else 0) +
      if p .minor .major then (promotable cfg σ.state now .major).length else 0 := by
    refine (movesOf_moveItems (promotable_nodup _ _ _) hmajor).trans ?_
    rw [movesOf_moveItems (promotable_nodup _ _ _) (hscope .major .enduring rfl)]
  have hstats : ((σ.moveItems P (promotable cfg σ.state now .enduring) .enduring .promoted).moveItems P
      (promotable cfg σ.state now .major) .major .promoted).state.stats = σ.state.stats :=
    (stats_moveItems _).trans (stats_moveItems _)
  have hup : rises (σ.autoPromoted P cfg now).log = rises σ.log + σ.promotedCount cfg now := by
    rw [rises, hmoves, if_pos (by decide), if_pos (by decide), Nat.add_assoc]
    rfl
  have hdown : falls (σ.autoPromoted P cfg now).log = falls σ.log := by
    rw [falls, hmoves, if_neg (by decide), if_neg (by decide)]
    rfl
  refine ⟨Prod.ext ?_ ?_, ?_⟩
  · simp only [Session.drift, hup]
    simp only [Session.autoPromoted, Session.counted, Session.mapState, hstats]
    push_cast
    ring
  · simp only [Session.drift, hdown]
    simp only [Session.autoPromoted, Session.counted, Session.mapState, hstats, Nat.add_zero]
  · show SessionStats.queriesServed _ + 0 = _
    rw [hstats, Nat.add_zero]

/-- A query, if it counts right. -/
theorem counted_query {q : ContextQuery} (hop : ev.op = .query q) (hright : w.CountsRight P cfg ev) :
    Counted (w.prepare ev).session (w.perform P cfg ev).1 (w.step P cfg ev).session := by
  unfold World.CountsRight at hright
  simp only [hop] at hright
  cases hpattern : queryPattern q with
  | error e =>
      have hattempts : Attempts (ev.op.exec P cfg) (w.prepare ev).moment [] (.error (.err e)) (w.prepare ev).moment := by
        rw [hop]
        refine Attempts.map_exit (Attempts.bind_exit ?_)
        unfold answer
        rw [hpattern]
        exact Attempts.exit.bind_exit
      exact counted_of_attempts hattempts (fun j τ _ hτ => by cases hτ) ⟨rfl, rfl⟩
  | ok pattern =>
      obtain ⟨r, hquery⟩ := attempts_query P cfg (m := (w.prepare ev).moment) hpattern
      have hattempts := hquery.map (g := Reply.result)
      refine counted_of_attempts (by rw [hop]; exact hattempts) (fun j τ hj hτ => ?_) ?_
      · rcases hright pattern hpattern j hj with hlt | hle
        · rw [List.getElem?_append_left (by rw [List.length_replicate]; exact hlt)] at hτ
          rw [List.eq_of_mem_replicate (List.mem_of_getElem? hτ)]
          exact Std.Refl.refl _
        · have hlength := (List.getElem?_eq_some_iff.mp hτ).1
          rw [List.length_append, List.length_replicate] at hlength
          exact absurd hle (not_le.mpr hlength)
      · have hanswered : Counted (w.prepare ev).session (.ok (.result r))
            ((w.prepare ev).moment.answered P cfg q pattern).session :=
          ⟨(steady_accesses _ _).1, congrArg (· + 1) (steady_accesses _ _).2⟩
        have hpromoted : Steady ((w.prepare ev).moment.answered P cfg q pattern).session
            ((w.prepare ev).moment.queried P cfg q pattern).session := by
          unfold Moment.queried
          cases cfg.promotion.cadence with
          | afterEachQuery => exact Trans.trans (steady_autoPromoted _) (steady_swept _ _)
          | never => exact Std.Refl.refl _
        exact ⟨hpromoted.1.trans hanswered.1, hpromoted.2.trans hanswered.2⟩

/-- Every other call is steady, and so are those that move items if they count right. -/
theorem counted_step (hright : w.CountsRight P cfg ev) :
    Counted (w.prepare ev).session (w.perform P cfg ev).1 (w.step P cfg ev).session := by
  obtain ⟨op, fates, elapsed⟩ := ev
  cases op with
  | add scope item => exact counted_of_keeps (fun _ => rfl) steady_add
  | addBatch scope items => exact counted_of_keeps (fun _ => rfl) steady_addBatch
  | remove scope id => exact counted_of_keeps (fun _ => rfl) steady_remove
  | query q => exact counted_query rfl hright
  | promote ids source target =>
      by_cases hmoves : source < target ∧ ∀ id ∈ ids, w.session.state.scopeOf id = some source
      · obtain ⟨hlt, hall⟩ := hmoves
        have hmovable : Movable target ids.eraseDups (w.prepare ⟨.promote ids source target, fates, elapsed⟩).session :=
          movable_of_scopeOf hall hlt.ne'
        have hshifted := steady_shifted P target .promoted
          (σ := (w.prepare ⟨.promote ids source target, fates, elapsed⟩).session) hmovable.1 fun id hid =>
            State.scopeOf_eq_some.mp (hall id (List.mem_eraseDups.mp hid))
        rw [if_pos hlt, if_neg hlt.not_gt] at hshifted
        exact counted_of_shift (fun _ => rfl) hmovable (attempts_promote hall hlt).map hshifted (hright hlt hall)
      · exact counted_of_keeps (fun _ => rfl) (steady_promote_refused hmoves)
  | evict scope criteria =>
      cases criteria with
      | items ids => exact counted_of_keeps (fun _ => rfl) steady_evictItems
      | policy count => exact counted_of_keeps (fun _ => rfl) steady_evictPolicy
      | demote ids target =>
          by_cases hmoves : target < scope ∧ ∀ id ∈ ids, w.session.state.scopeOf id = some scope
          · obtain ⟨hlt, hall⟩ := hmoves
            have hmovable : Movable target ids.eraseDups
                (w.prepare ⟨.evict scope (.demote ids target), fates, elapsed⟩).session := movable_of_scopeOf hall hlt.ne
            have hshifted := steady_shifted P target .demoted
              (σ := (w.prepare ⟨.evict scope (.demote ids target), fates, elapsed⟩).session) hmovable.1 fun id hid =>
                State.scopeOf_eq_some.mp (hall id (List.mem_eraseDups.mp hid))
            rw [if_neg hlt.not_gt, if_pos hlt] at hshifted
            exact counted_of_shift (fun _ => rfl) hmovable (attempts_demote hall hlt).map hshifted (hright hlt hall)
          · exact counted_of_keeps (fun _ => rfl) (steady_demote_refused hmoves)
  | reason scope => exact counted_of_keeps (fun _ => rfl) keeps_throw
  | validateShapes data shapes => exact counted_of_keeps (fun _ => rfl) keeps_throw
  | evaluateDatalog scope => exact counted_of_keeps (fun _ => rfl) keeps_throw

/-! ## Runs -/

/-- The log of a step starts empty, so a step counts its moves. -/
theorem counters_step (hright : w.CountsRight P cfg ev) :
    let before := w.session.state.stats
    let after := (w.step P cfg ev).session.state.stats
    after.queriesServed = before.queriesServed + (if answeredQuery (w.perform P cfg ev).1 then 1 else 0) ∧
      after.itemsPromoted = before.itemsPromoted + rises (w.step P cfg ev).session.log ∧
      after.itemsDemoted = before.itemsDemoted + falls (w.step P cfg ev).session.log := by
  intro before after
  obtain ⟨hdrift, hserved⟩ := counted_step hright
  have hup := congrArg Prod.fst hdrift
  have hdown := congrArg Prod.snd hdrift
  have hempty : (w.prepare ev).session.log = [] := rfl
  simp only [Session.drift, hempty, rises, falls, movesOf, List.countP_nil] at hup hdown
  refine ⟨hserved, ?_, ?_⟩
  · simp only [before, after, rises, movesOf]
    have hstats : (w.prepare ev).session.state.stats = w.session.state.stats := rfl
    rw [hstats] at hup
    omega
  · simp only [before, after, falls, movesOf]
    have hstats : (w.prepare ev).session.state.stats = w.session.state.stats := rfl
    rw [hstats] at hdown
    omega

theorem counters_run (evs : List Event) (hright : w.RunCountsRight P cfg evs) :
    let before := w.session.state.stats
    let after := (w.run P cfg evs).session.state.stats
    after.queriesServed = before.queriesServed + w.servedBy P cfg evs ∧
      after.itemsPromoted = before.itemsPromoted + w.risesBy P cfg evs ∧
      after.itemsDemoted = before.itemsDemoted + w.fallsBy P cfg evs := by
  induction evs generalizing w with
  | nil => exact ⟨rfl, rfl, rfl⟩
  | cons ev evs ih =>
      obtain ⟨hserved, hup, hdown⟩ := counters_step hright.1
      obtain ⟨hserved', hup', hdown'⟩ := ih hright.2
      rw [World.run_cons, World.servedBy, World.risesBy, World.fallsBy]
      exact ⟨by omega, by omega, by omega⟩

/-- In every state of a run from an `open` whose steps all count right, the counters tell what happened. -/
theorem counters_tell (P : Platform) (cfg : Settings) (persistent : Tiers Bool) (w w₀ : World)
    (hopen : (openSession P persistent).run.run w = (.ok (), w₀)) (evs : List Event)
    (hright : w₀.RunCountsRight P cfg evs) :
    let stats := (w₀.run P cfg evs).session.state.stats
    stats.queriesServed = w₀.servedBy P cfg evs ∧ stats.itemsPromoted = w₀.risesBy P cfg evs ∧
      stats.itemsDemoted = w₀.fallsBy P cfg evs := by
  have hzero : w₀.session.state.stats = .zero := (open_loaded.ok hopen).2.2.1.stats
  have hrun := counters_run evs hright
  simp only [hzero, SessionStats.zero, Nat.zero_add] at hrun
  exact hrun

/-- No room in major. -/
def crowded : Settings :=
  { bounds := ⟨none, some 0, none⟩, evictionPolicy := .lru, demotionTarget := .oneStepThenDrop,
    promotion := { PromotionConfig.default with cadence := .never } }

/-- A promotion whose enforcement fails, one that fails before its first move, and one that returns. -/
theorem counters_tell_failed_enforcement :
    let evs : List Event := [⟨.addBatch .minor [note, note], [], []⟩,
      ⟨.promote [⟨0⟩] .minor .major, [.commit, .commit, .fail], []⟩,
      ⟨.promote [⟨1⟩] .minor .major, [.commit, .fail], []⟩, ⟨.promote [⟨1⟩] .minor .major, [], []⟩]
    let stats := (World.start.run notePlatform crowded evs).session.state.stats
    (stats.itemsPromoted = 2 ∧ stats.itemsDemoted = 2) ∧
      stats.queriesServed = World.start.servedBy notePlatform crowded evs ∧
      stats.itemsPromoted = World.start.risesBy notePlatform crowded evs ∧
      stats.itemsDemoted = World.start.fallsBy notePlatform crowded evs := by
  intro evs stats
  have hopen : (openSession notePlatform (.const true)).run.run World.start = (.ok (), World.start) := rfl
  refine ⟨by decide +kernel, counters_tell notePlatform crowded (.const true) World.start World.start hopen evs ?_⟩
  refine ⟨trivial, fun _ _ j hj => ?_, fun _ _ j hj => ?_, fun _ _ j hj => ?_, trivial⟩
  · cases hj
    exact Or.inr le_rfl
  · cases hj
    exact Or.inl one_lt_two
  · cases hj

/-- A promotion that fails after its first move has moved an item that it does not count. -/
theorem promotion_not_counted :
    let w := World.start.step notePlatform (manual none) ⟨.addBatch .minor [note, note], [], []⟩
    let ev : Event := ⟨.promote [⟨0⟩, ⟨1⟩] .minor .major, [.commit, .commit, .fail], []⟩
    (w.perform notePlatform (manual none) ev).1 = .error (.err .storage) ∧
      w.risesBy notePlatform (manual none) [ev] = 1 ∧
      (w.step notePlatform (manual none) ev).session.state.stats.itemsPromoted = 0 :=
  ⟨rfl, by decide +kernel, by decide +kernel⟩

end Semanticore.Context
