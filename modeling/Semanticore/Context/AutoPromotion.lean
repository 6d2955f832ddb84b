import Semanticore.Context.Coherence
import Semanticore.Context.Lemmas.Attempts
import Semanticore.Context.Lemmas.Opening
import Semanticore.Context.Lemmas.References
import Semanticore.Context.Lemmas.Sweep
import Semanticore.Context.Lemmas.Tidy
import Semanticore.Context.QueryScan

/-!
# What auto-promotion promotes

The rule for minor counts the queries that returned an item since it entered minor, within a window. The code keeps a
queue of access times with each entry: every query pushes, in any tier, and drops from the front what has left the window;
only a demotion empties it. Without bounds nothing is evicted on the way, and the queue tells the same as the history.
-/

namespace Semanticore.Context
open Semanticore.Core Semanticore.Lib

/-! ## The history -/

/-- The ids a query returned. -/
def returnedIds : Except Halt Reply → List ItemId
  | .ok (.result r) => r.items.map (·.id)
  | _ => []

namespace World

variable (P : Platform) (cfg : Settings)

/-- The calls of a run, each with the world it was made in. -/
def calls (w : World) : List Event → List (World × Event)
  | [] => []
  | ev :: evs => (w, ev) :: (w.step P cfg ev).calls evs

/-- What the clock shows when a query of the event reads it. -/
def queriedAt (w : World) (ev : Event) : Instant := (w.prepare ev).reading

/-- The times of the queries that returned `id` since it last entered minor, latest first: those among the latest calls
of the run before which it was in minor all along. -/
def timesInMinor (w : World) (evs : List Event) (id : ItemId) : List Instant :=
  (((w.calls P cfg evs).reverse.takeWhile fun c => c.1.session.state.scopeOf id = some .minor).filter fun c =>
    id ∈ returnedIds (c.1.perform P cfg c.2).1).map fun c => c.1.queriedAt c.2

theorem calls_snoc (w : World) (evs : List Event) (ev : Event) :
    w.calls P cfg (evs ++ [ev]) = w.calls P cfg evs ++ [(w.run P cfg evs, ev)] := by
  induction evs generalizing w with
  | nil => rfl
  | cons ev' evs ih => simp [calls, ih]

theorem timesInMinor_snoc (w : World) (evs : List Event) (ev : Event) (id : ItemId) :
    w.timesInMinor P cfg (evs ++ [ev]) id =
      if (w.run P cfg evs).session.state.scopeOf id = some .minor then
        (if id ∈ returnedIds ((w.run P cfg evs).perform P cfg ev).1 then [(w.run P cfg evs).queriedAt ev] else []) ++
          w.timesInMinor P cfg evs id
      else [] := by
  unfold timesInMinor
  rw [calls_snoc, List.reverse_append, List.reverse_singleton, List.singleton_append, List.takeWhile_cons]
  by_cases hminor : (w.run P cfg evs).session.state.scopeOf id = some .minor
  · by_cases hid : id ∈ returnedIds ((w.run P cfg evs).perform P cfg ev).1 <;> simp [hminor, hid]
  · simp [hminor]

/-- The item is in minor when the query of the event is made after a run, and enough queries returned it there. -/
def Frequent (w : World) (evs : List Event) (ev : Event) (id : ItemId) : Prop :=
  (w.run P cfg evs).session.state.scopeOf id = some .minor ∧
    cfg.promotion.minorToMajorAccesses < ((w.timesInMinor P cfg (evs ++ [ev]) id).filter fun t =>
      (w.run P cfg evs).queriedAt ev - t ≤ cfg.promotion.minorWindow).length

end World

/-- The item is in major, and enough other live items cite it. -/
def State.Referenced (cfg : Settings) (st : State) (id : ItemId) : Prop :=
  st.scopeOf id = some .major ∧ cfg.promotion.majorToEnduringReferences < (st.citers id).ncard

variable {P : Platform} {cfg : Settings} {σ τ : Session} {w w₀ : World} {ev : Event} {evs : List Event} {id : ItemId}
  {ids : List ItemId} {e : Entry} {scope target : ContextScope} {arrival : Arrival} {now now' : Instant}
  {times recent : List Instant}

/-! ## The queue of an entry -/

/-- Of the times, latest first, the queue lacks only the oldest ones, and those had left the window by `now`. -/
def Remembers (cfg : Settings) (now : Instant) (times recent : List Instant) : Prop :=
  ∃ old, times.reverse = old ++ recent ∧ ∀ t ∈ old, cfg.promotion.minorWindow < now - t

theorem Remembers.mono (h : Remembers cfg now times recent) (hle : now ≤ now') : Remembers cfg now' times recent := by
  obtain ⟨old, htimes, hold⟩ := h
  exact ⟨old, htimes, fun t ht => (hold t ht).trans_le (Nat.sub_le_sub_right hle t)⟩

theorem Entry.touch_recent (e : Entry) (now : Instant) : (e.touch cfg now).recent =
    (e.recent ++ [now]).dropWhile fun t => cfg.promotion.minorWindow < now - t := by
  unfold touch
  split <;> rfl

theorem Remembers.touch (h : Remembers cfg now times e.recent) (hle : now ≤ now') :
    Remembers cfg now' (now' :: times) (e.touch cfg now').recent := by
  obtain ⟨old, htimes, hold⟩ := h.mono hle
  rw [Entry.touch_recent]
  refine ⟨old ++ (e.recent ++ [now']).takeWhile fun t => cfg.promotion.minorWindow < now' - t, ?_, fun t ht => ?_⟩
  · rw [List.reverse_cons, htimes, List.append_assoc, List.append_assoc, List.takeWhile_append_dropWhile]
  · rcases List.mem_append.mp ht with ht | ht
    · exact hold t ht
    · exact of_decide_eq_true (List.all_eq_true.mp List.all_takeWhile t ht)

/-- The queue has as many times in the window as the history. -/
theorem Remembers.count (h : Remembers cfg now times recent) :
    (recent.filter fun t => now - t ≤ cfg.promotion.minorWindow).length =
      (times.filter fun t => now - t ≤ cfg.promotion.minorWindow).length := by
  obtain ⟨old, htimes, hold⟩ := h
  have hnone : (old.filter fun t => now - t ≤ cfg.promotion.minorWindow) = [] := by
    simpa [List.filter_eq_nil_iff, Nat.lt_sub_iff_add_lt] using hold
  have hall := congrArg (fun l => (l.filter fun t => now - t ≤ cfg.promotion.minorWindow).length) htimes
  simp only [List.filter_reverse, List.length_reverse, List.filter_append, hnone, List.nil_append] at hall
  exact hall.symm

/-! ## Entering minor -/

/-- What enters minor has no recent accesses, and the rest of minor is as it was. -/
def EntersFresh (σ τ : Session) : Prop :=
  ∀ (id : ItemId) (e : Entry), τ.state.items[id]? = some e → e.scope = .minor →
    σ.state.items[id]? = some e ∨ σ.state.scopeOf id ≠ some .minor ∧ e.recent = []

theorem entersFresh_of_eq (h : τ.state.items = σ.state.items) : EntersFresh σ τ := fun _ _ he _ => Or.inl (h ▸ he)

/-- A loop over ids that takes them out of minor, or in without their accesses. -/
theorem entersFresh_loop (ids : List ItemId) {g : Entry → Option Entry}
    (hitems : ∀ id : ItemId, τ.state.items[id]? = if id ∈ ids then σ.state.items[id]?.bind g else σ.state.items[id]?)
    (hg : ∀ id ∈ ids, ∀ e e' : Entry, σ.state.items[id]? = some e → g e = some e' → e'.scope = .minor →
      e.scope ≠ .minor ∧ e'.recent = []) : EntersFresh σ τ := by
  intro id e' he' hminor
  rw [hitems] at he'
  split at he'
  · rename_i hid
    obtain ⟨e, he, hge⟩ := Option.bind_eq_some_iff.mp he'
    obtain ⟨hscope, hrecent⟩ := hg id hid e e' he hge hminor
    refine Or.inr ⟨?_, hrecent⟩
    simpa [State.scopeOf, he] using hscope
  · exact Or.inl he'

theorem entersFresh_removed (P : Platform) (σ : Session) (id : ItemId) (scope : ContextScope) :
    EntersFresh σ (σ.removed P id scope) := by
  refine entersFresh_loop [id] (g := fun _ => none) (fun id' => ?_) fun _ _ _ _ _ h => by cases h
  rw [Session.items_removed]
  by_cases hid : id = id'
  · subst hid
    simp
  · simp [hid, Ne.symm hid]

theorem entersFresh_dropItems (P : Platform) (hnodup : ids.Nodup) : EntersFresh σ (σ.dropItems P ids) := by
  refine entersFresh_loop ids (g := fun _ => none) (fun id => ?_) fun _ _ _ _ _ h => by cases h
  rw [Session.items_dropItems hnodup]
  simp

theorem entersFresh_moveItems (P : Platform) (hnodup : ids.Nodup)
    (h : target = .minor → arrival = .demoted ∧ ∀ id ∈ ids, σ.state.scopeOf id ≠ some .minor) :
    EntersFresh σ (σ.moveItems P ids target arrival) := by
  refine entersFresh_loop ids (g := fun e => some (e.arrive target arrival)) (fun id => ?_) fun id hid e e' he harrive hs => ?_
  · rw [Session.items_moveItems hnodup, Option.map_eq_bind]
    rfl
  · cases harrive
    obtain ⟨harrival, hscopes⟩ := h hs
    refine ⟨fun hminor => hscopes id hid ?_, if_pos harrival⟩
    rw [State.scopeOf, he, Option.map_some, hminor]

theorem entersFresh_evictVictims (P : Platform) (cfg : Settings) (hnodup : ids.Nodup)
    (h : ∀ id ∈ ids, σ.state.scopeOf id = some scope) : EntersFresh σ (σ.evictVictims P cfg scope ids) := by
  refine entersFresh_loop ids (fun id => Session.items_evictVictims hnodup) fun id hid e e' he hevicted hs => ?_
  have hcolder := Entry.evicted_colder hevicted
  obtain ⟨colder, -, rfl⟩ := Option.map_eq_some_iff.mp hevicted
  refine ⟨fun hminor => ?_, rfl⟩
  have hscope := h id hid
  rw [State.scopeOf, he, Option.map_some, hminor] at hscope
  cases hscope
  cases hcolder

theorem entersFresh_added (P : Platform) {items : List ContextItem} (htidy : Tidy now' σ.state)
    (hroom : σ.state.nextId.toNat + items.length < 2 ^ 64) (scope : ContextScope) (now : Instant) :
    EntersFresh σ (σ.added P scope items now) := by
  intro id e he hminor
  by_cases hid : id ∈ (σ.batch items).map Prod.fst
  · obtain ⟨⟨id', item⟩, hp, rfl⟩ := List.mem_map.mp hid
    rw [Session.items_added_of_mem hroom hp] at he
    cases he
    refine Or.inr ⟨fun hlive => ?_, rfl⟩
    obtain ⟨e, he, -⟩ := State.scopeOf_eq_some.mp hlive
    exact absurd (htidy.fresh _ e he) (not_lt.mpr (Session.mem_batch_ids hroom hp).1)
  · rw [Session.items_added_of_not_mem hroom hid] at he
    exact Or.inl he

/-! ## Calls without bounds -/

/-- No tier has a bound. -/
def Settings.Unbounded (cfg : Settings) : Prop := ∀ s, cfg.bounds.get s = none

theorem Sweep.unbounded {scopes : List ContextScope} (h : Sweep P cfg scopes σ τ) (hfree : cfg.Unbounded) : τ = σ := by
  induction h with
  | nil => rfl
  | @cons scope rest σ τ now h ih =>
      have hexcess : σ.excess cfg scope = 0 := by simp [Session.excess, hfree scope]
      rw [ih, Session.enforceTier, if_pos hexcess]

theorem entersFresh_counted {served promoted demoted : Nat} (h : EntersFresh σ τ) :
    EntersFresh σ (τ.counted served promoted demoted) := h

/-- A call that is no query returns no items, and what enters minor enters without accesses. -/
theorem quiet_spec (hfree : cfg.Unbounded) (htidy : Tidy now w.session.state) (op : Op) (hop : ∀ q, op ≠ .query q) :
    Runs Later (op.exec P cfg) w
      (fun reply w' => returnedIds (.ok reply) = [] ∧ EntersFresh w.session w'.session) (Halts P cfg op w) := by
  cases op with
  | add scope item =>
      refine Runs.map (add_spec.mono (fun id w' _ h => ⟨rfl, ?_⟩) fun _ _ _ h => h)
      obtain ⟨-, hadm, t, -, -, hsweep, -⟩ := h
      exact hsweep.unbounded hfree ▸ entersFresh_added P htidy hadm.room scope t
  | addBatch scope items =>
      refine Runs.map ((addBatch_spec (.addBatch scope items) rfl).mono (fun ids w' _ h => ⟨rfl, ?_⟩) fun _ _ _ h => h)
      obtain ⟨-, hadm, t, -, -, hsweep, -⟩ := h
      exact hsweep.unbounded hfree ▸ entersFresh_added P htidy hadm.room scope t
  | remove scope id =>
      refine Runs.map (remove_spec.mono (fun found w' _ h => ⟨rfl, ?_⟩) fun _ _ _ h => h)
      cases found with
      | false => exact entersFresh_of_eq (congrArg (·.state.items) h.2)
      | true => exact h.2 ▸ entersFresh_removed P w.session id scope
  | query q => exact (hop q rfl).elim
  | promote ids source target =>
      refine Runs.map (promote_spec.mono (fun n w' _ h => ⟨rfl, ?_⟩) fun _ _ _ h => h)
      obtain ⟨hle, -, h⟩ := h
      split at h
      · exact entersFresh_of_eq (congrArg (·.state.items) h.2)
      · rename_i hne
        rw [h.2.1.unbounded hfree]
        refine entersFresh_counted (entersFresh_moveItems P (nodup_eraseDups ids) fun hminor => ?_)
        -- Nothing is promoted to minor.
        subst hminor
        exact (hne (ContextScope.eq_of_le_last rfl hle).symm).elim
  | evict scope criteria =>
      refine Runs.map (evict_spec.mono (fun n w' _ h => ⟨rfl, ?_⟩) fun _ _ _ h => h)
      obtain ⟨h, -⟩ := h
      cases criteria with
      | items ids =>
          obtain ⟨-, -, hσ⟩ := h
          exact hσ ▸ entersFresh_dropItems P (nodup_eraseDups ids)
      | demote ids target =>
          obtain ⟨-, hlt, hscopes, hsweep⟩ := h
          rw [hsweep.unbounded hfree]
          refine entersFresh_counted (entersFresh_moveItems P (nodup_eraseDups ids) fun _ => ⟨rfl, fun id hid => ?_⟩)
          rw [hscopes id (List.mem_eraseDups.mp hid)]
          intro hminor
          cases hminor
          exact (Nat.not_lt_zero _ hlt).elim
      | policy count =>
          obtain ⟨_, -, hsweep⟩ := h
          rw [hsweep.unbounded hfree]
          exact entersFresh_evictVictims P cfg chosenVictims_nodup fun id hid => scopeOf_of_mem_chosenVictims hid
  | reason scope => exact Runs.map (Runs.exit (.refused (by simp [nyi]) rfl))
  | validateShapes data shapes => exact Runs.map (Runs.exit (.refused (by simp) rfl))
  | evaluateDatalog scope => exact Runs.map (Runs.exit (.refused (by simp) rfl))

/-! ## Queries -/

theorem items_answered (hnodup : ids.Nodup) : (σ.answered cfg now ids).state.items[id]? =
    if id ∈ ids then σ.state.items[id]?.map (·.touch cfg now) else σ.state.items[id]? :=
  Session.items_accesses hnodup

theorem rankedAs_ids {hits : List (ItemId × ContextScope)} {items : List RankedItem}
    (h : List.Forall₂ (RankedAs σ) hits items) : items.map (·.id) = hits.map (·.1) := by
  induction h with
  | nil => rfl
  | cons hr _ ih =>
      obtain ⟨e, -, rfl⟩ := hr
      rw [List.map_cons, List.map_cons, ih]

/-- Auto-promotion moves each item once. -/
theorem items_autoPromoted : (σ.autoPromoted P cfg now).state.items[id]? =
    if id ∈ promotable cfg σ.state now .enduring then σ.state.items[id]?.map (·.arrive .enduring .promoted)
    else if id ∈ promotable cfg σ.state now .major then σ.state.items[id]?.map (·.arrive .major .promoted)
    else σ.state.items[id]? := by
  show ((σ.moveItems P _ .enduring .promoted).moveItems P _ .major .promoted).state.items[id]? = _
  rw [Session.items_moveItems (promotable_nodup _ _ _), Session.items_moveItems (promotable_nodup _ _ _)]
  by_cases hE : id ∈ promotable cfg σ.state now .enduring
  · rw [if_pos hE, if_pos hE, if_neg (promotable_disjoint (by decide) hE)]
  · rw [if_neg hE, if_neg hE]

/-- What is promotable to a tier rises there. -/
theorem scopeOf_risen (hid : id ∈ promotable cfg σ.state now target) :
    (σ.autoPromoted P cfg now).state.scopeOf id = some target := by
  obtain ⟨e, he, htarget⟩ := mem_promotable.mp hid
  have hcolder := promotionTarget_colder htarget
  rw [State.scopeOf, items_autoPromoted, he]
  cases target with
  | minor => cases hcolder
  | major => rw [if_neg (promotable_disjoint (by decide) hid), if_pos hid, Option.map_some, Option.map_some, Entry.arrive_scope]
  | enduring => rw [if_pos hid, Option.map_some, Option.map_some, Entry.arrive_scope]

/-- The rest stays. -/
theorem scopeOf_not_risen (hM : id ∉ promotable cfg σ.state now .major) (hE : id ∉ promotable cfg σ.state now .enduring) :
    (σ.autoPromoted P cfg now).state.scopeOf id = σ.state.scopeOf id := by
  rw [State.scopeOf, items_autoPromoted, if_neg hE, if_neg hM, State.scopeOf]

theorem scopeOf_autoPromoted_step {s s' : ContextScope} (hs : σ.state.scopeOf id = some s)
    (hs' : (σ.autoPromoted P cfg now).state.scopeOf id = some s') : s' = s ∨ s'.colder = some s := by
  have hrise : ∀ target, id ∈ promotable cfg σ.state now target → s'.colder = some s := by
    intro target hid
    cases (scopeOf_risen hid).symm.trans hs'
    obtain ⟨e, he, htarget⟩ := mem_promotable.mp hid
    rw [State.scopeOf, he, Option.map_some] at hs
    rw [promotionTarget_colder htarget, hs]
  by_cases hM : id ∈ promotable cfg σ.state now .major
  · exact Or.inr (hrise _ hM)
  by_cases hE : id ∈ promotable cfg σ.state now .enduring
  · exact Or.inr (hrise _ hE)
  · rw [scopeOf_not_risen hM hE, hs] at hs'
    exact Or.inl (Option.some.inj hs').symm

/-- What auto-promotion leaves in minor was there. -/
theorem minor_of_autoPromoted (he : (σ.autoPromoted P cfg now).state.items[id]? = some e) (hminor : e.scope = .minor) :
    σ.state.items[id]? = some e := by
  rw [items_autoPromoted] at he
  split_ifs at he with hE hM
  · obtain ⟨e₀, -, rfl⟩ := Option.map_eq_some_iff.mp he
    cases hminor
  · obtain ⟨e₀, -, rfl⟩ := Option.map_eq_some_iff.mp he
    cases hminor
  · exact he

theorem promotedCount_eq (cfg : Settings) (σ : Session) (now : Instant) : σ.promotedCount cfg now =
    {id | id ∈ promotable cfg σ.state now .major ∨ id ∈ promotable cfg σ.state now .enduring}.ncard := by
  have hnodup : (promotable cfg σ.state now .enduring ++ promotable cfg σ.state now .major).Nodup :=
    List.nodup_append'.mpr ⟨promotable_nodup _ _ _, promotable_nodup _ _ _, fun _ hE => promotable_disjoint (by decide) hE⟩
  have hset : {id | id ∈ promotable cfg σ.state now .major ∨ id ∈ promotable cfg σ.state now .enduring} =
      ((promotable cfg σ.state now .enduring ++ promotable cfg σ.state now .major).toFinset : Set ItemId) := by
    ext id
    simp [or_comm]
  rw [hset, Set.ncard_coe_finset, List.toFinset_card_of_nodup hnodup, List.length_append]
  rfl

/-- Nothing is written for a promotion of nothing. -/
theorem autoPromoted_of_none (hE : promotable cfg σ.state now .enduring = []) (hM : promotable cfg σ.state now .major = []) :
    (σ.autoPromoted P cfg now).stores = σ.stores := by
  unfold Session.autoPromoted
  rw [hE, hM]
  rfl

/-! ## Runs -/

/-- The queues of the items in minor after a run from `w₀`, against its history. -/
def Recalls (P : Platform) (cfg : Settings) (w₀ : World) (evs : List Event) : Prop :=
  ∀ (id : ItemId) (e : Entry), (w₀.run P cfg evs).session.state.items[id]? = some e → e.scope = .minor →
    Remembers cfg (w₀.run P cfg evs).now (w₀.timesInMinor P cfg evs id) e.recent

theorem Recalls.quiet (h : Recalls P cfg w₀ evs) (hnone : returnedIds ((w₀.run P cfg evs).perform P cfg ev).1 = [])
    (hkept : EntersFresh (w₀.run P cfg evs).session ((w₀.run P cfg evs).step P cfg ev).session) :
    Recalls P cfg w₀ (evs ++ [ev]) := by
  intro id e he hminor
  rw [World.run_append] at he ⊢
  rw [World.timesInMinor_snoc, hnone]
  rcases hkept id e he hminor with hsame | ⟨hout, hrecent⟩
  · rw [if_pos (State.scopeOf_eq_some.mpr ⟨e, hsame, hminor⟩)]
    exact (h id e hsame hminor).mono (now_le_step P cfg _ ev)
  · rw [if_neg hout, hrecent]
    exact ⟨[], rfl, fun t ht => (List.not_mem_nil ht).elim⟩

/-- When a query has counted its hits, the queues are up to date with it. -/
theorem Recalls.answered {q : ContextQuery} {pattern : QuadPattern} {r : ContextQueryResult} (h : Recalls P cfg w₀ evs)
    (hσ : σ = ((w₀.run P cfg evs).prepare ev).session)
    (hok : ((w₀.run P cfg evs).perform P cfg ev).1 = .ok (.result r))
    (hitems : List.Forall₂ (RankedAs σ) (σ.hits P q pattern) r.items) (id : ItemId) (e : Entry)
    (he : (σ.answered cfg ((w₀.run P cfg evs).queriedAt ev) ((σ.hits P q pattern).map (·.1))).state.items[id]? = some e)
    (hminor : e.scope = .minor) :
    Remembers cfg ((w₀.run P cfg evs).queriedAt ev) (w₀.timesInMinor P cfg (evs ++ [ev]) id) e.recent := by
  have hle : (w₀.run P cfg evs).now ≤ (w₀.run P cfg evs).queriedAt ev := ((w₀.run P cfg evs).prepare ev).now_le_reading
  have hbefore : ∀ e₀ : Entry, σ.state.items[id]? = some e₀ → (w₀.run P cfg evs).session.state.items[id]? = some e₀ := by
    intro e₀ he₀
    rw [hσ] at he₀
    exact he₀
  rw [World.timesInMinor_snoc, hok, returnedIds, rankedAs_ids hitems]
  rw [items_answered (hits_nodup _ _ _)] at he
  split at he
  · rename_i hid
    obtain ⟨e₀, he₀, rfl⟩ := Option.map_eq_some_iff.mp he
    rw [Entry.touch_scope] at hminor
    rw [if_pos (State.scopeOf_eq_some.mpr ⟨e₀, hbefore e₀ he₀, hminor⟩), if_pos hid]
    exact (h id e₀ (hbefore e₀ he₀) hminor).touch hle
  · rename_i hid
    rw [if_pos (State.scopeOf_eq_some.mpr ⟨e, hbefore e he, hminor⟩), if_neg hid]
    exact (h id e (hbefore e he) hminor).mono hle

/-- What a query left that returned a result. -/
theorem perform_query {q : ContextQuery} {reply : Reply} (hop : ev.op = .query q) (hok : (w.perform P cfg ev).1 = .ok reply) :
    ∃ r, reply = .result r ∧ Answers P cfg q r (w.prepare ev) (w.step P cfg ev) := by
  have hspec : Runs Later (ev.op.exec P cfg) (w.prepare ev)
      (fun reply w' => ∃ r, reply = .result r ∧ Answers P cfg q r (w.prepare ev) w')
      (Halts P cfg (.query q) (w.prepare ev)) := by
    rw [hop]
    exact Runs.map (query_spec.mono (fun r _ _ h => ⟨r, rfl, h⟩) fun _ _ _ h => h)
  exact perform_ok hspec hok

/-- A query that is not refused returns. -/
theorem query_returns (P : Platform) (cfg : Settings) {q : ContextQuery} {pattern : QuadPattern} (hclean : ev.Clean)
    (hop : ev.op = .query q) (hpattern : queryPattern q = .ok pattern) :
    ∃ r, (w.perform P cfg ev).1 = .ok (.result r) := by
  obtain ⟨r, hquery⟩ := attempts_query P cfg (m := (w.prepare ev).moment) hpattern
  have hattempts := hquery.map (g := Reply.result)
  have hexec : ev.op.exec P cfg = Reply.result <$> query P cfg q := by rw [hop]; rfl
  rw [← hexec] at hattempts
  exact ⟨r, (hattempts.perform_ends (stopped_clean hclean)).1⟩

/-- A call without storage failures that returns no reply leaves the Session as it was. -/
theorem perform_halted {halt : Halt} (hclean : ev.Clean) (h : (w.perform P cfg ev).1 = .error halt) :
    (w.step P cfg ev).session = (w.prepare ev).session := by
  cases perform_error (op_spec P cfg ev.op (w.prepare ev)) h with
  | refused he hsame => exact hsame
  | overflow hop hfull hsame => exact hsame
  | failed hunclean hbegin hends => exact (hunclean (clean_prepare hclean)).elim

theorem Recalls.step (h : Recalls P cfg w₀ evs) (hfree : cfg.Unbounded) (hcadence : cfg.promotion.cadence = .afterEachQuery)
    (htidy : Tidy (w₀.run P cfg evs).now (w₀.run P cfg evs).session.state) (hclean : ev.Clean) :
    Recalls P cfg w₀ (evs ++ [ev]) := by
  cases hresult : ((w₀.run P cfg evs).perform P cfg ev).1 with
  | error halt =>
      refine h.quiet (by rw [hresult]; rfl) (entersFresh_of_eq ?_)
      exact congrArg (·.state.items) (perform_halted hclean hresult)
  | ok reply =>
      by_cases hquery : ∃ q, ev.op = .query q
      · obtain ⟨q, hop⟩ := hquery
        obtain ⟨r, rfl, pattern, now, -, hnow, hle, -, hitems, -, hpromoted⟩ := perform_query hop hresult
        rw [hcadence] at hpromoted
        intro id e he hminor
        rw [World.run_append] at he ⊢
        have he' := hpromoted.2.unbounded hfree ▸ he
        subst hnow
        exact (h.answered rfl hresult hitems id e (minor_of_autoPromoted he' hminor) hminor).mono hle
      · have htidy' : Tidy (w₀.run P cfg evs).now ((w₀.run P cfg evs).prepare ev).session.state := htidy
        obtain ⟨hnone, hkept⟩ := perform_ok (quiet_spec hfree htidy' ev.op fun q hop => hquery ⟨q, hop⟩) hresult
        exact h.quiet (by rw [hresult]; exact hnone) hkept

theorem recalls_run (hfree : cfg.Unbounded) (hcadence : cfg.promotion.cadence = .afterEachQuery)
    (htidy : Tidy w₀.now w₀.session.state)
    (hopened : ∀ (id : ItemId) (e : Entry), w₀.session.state.items[id]? = some e → e.recent = [])
    (hclean : ∀ ev ∈ evs, ev.Clean) : Recalls P cfg w₀ evs := by
  induction evs using List.reverseRecOn with
  | nil =>
      intro id e he _
      rw [hopened id e he]
      exact ⟨[], rfl, fun t ht => (List.not_mem_nil ht).elim⟩
  | append_singleton evs ev ih =>
      have hrecalls := ih fun ev' h' => hclean ev' (by simp [h'])
      exact hrecalls.step hfree hcadence htidy.run (hclean ev (by simp))

/-! ## The rules -/

theorem promotionTarget_major {refs : Std.TreeMap ItemId Nat} : promotionTarget cfg refs now id e = some .major ↔
    e.scope = .minor ∧ cfg.promotion.minorToMajorAccesses <
      (e.recent.filter fun t => now - t ≤ cfg.promotion.minorWindow).length := by
  unfold promotionTarget
  cases e.scope with
  | minor => simp
  | major => simp
  | enduring => simp

theorem promotionTarget_enduring {refs : Std.TreeMap ItemId Nat} : promotionTarget cfg refs now id e = some .enduring ↔
    e.scope = .major ∧ cfg.promotion.majorToEnduringReferences < refs[id]?.getD 0 := by
  unfold promotionTarget
  cases e.scope with
  | minor => simp
  | major => simp
  | enduring => simp

/-- What is promoted to enduring is what enough other items cite. -/
theorem mem_promotable_enduring {st : State} :
    id ∈ promotable cfg st now .enduring ↔ st.Referenced cfg id := by
  rw [mem_promotable, State.Referenced, State.scopeOf_eq_some, ← referenceCounts_eq]
  simp only [promotionTarget_enduring, exists_and_right, ← and_assoc]

/-- What is promoted to major is what enough queries returned. -/
theorem mem_promotable_major {st : State} (hscope : st.scopeOf id = (w₀.run P cfg evs).session.state.scopeOf id)
    (hremembers : ∀ e : Entry, st.items[id]? = some e → e.scope = .minor →
      Remembers cfg ((w₀.run P cfg evs).queriedAt ev) (w₀.timesInMinor P cfg (evs ++ [ev]) id) e.recent) :
    id ∈ promotable cfg st ((w₀.run P cfg evs).queriedAt ev) .major ↔ w₀.Frequent P cfg evs ev id := by
  rw [mem_promotable, World.Frequent, ← hscope, State.scopeOf_eq_some]
  simp only [promotionTarget_major]
  constructor
  · rintro ⟨e, he, hminor, hlt⟩
    rw [(hremembers e he hminor).count] at hlt
    exact ⟨⟨e, he, hminor⟩, hlt⟩
  · rintro ⟨⟨e, he, hminor⟩, hlt⟩
    rw [← (hremembers e he hminor).count] at hlt
    exact ⟨e, he, hminor, hlt⟩

/-- In a run without storage failures, from an `open` that succeeds and without bounds, a query that is not refused returns
and moves to major exactly the items in minor that enough queries returned, to enduring exactly the items in major that
enough other items cite, and nothing else, so nothing by more than one tier. It reports how many, and writes nothing if
there are none. -/
theorem auto_promotion_exact (P : Platform) (persistent : Tiers Bool) {w w₀ : World}
    (hopen : (openSession P persistent).run.run w = (.ok (), w₀)) (cfg : Settings)
    (hfree : cfg.bounds = ⟨none, none, none⟩) (hcadence : cfg.promotion.cadence = .afterEachQuery) (evs : List Event)
    (ev : Event) (hclean : ∀ ev' ∈ evs ++ [ev], ev'.Clean) (q : ContextQuery) (pattern : QuadPattern)
    (hop : ev.op = .query q) (hpattern : queryPattern q = .ok pattern) :
    let w₁ := w₀.run P cfg evs
    let w₂ := w₁.step P cfg ev
    let frequent := w₀.Frequent P cfg evs ev
    let referenced := w₁.session.state.Referenced cfg
    ∃ r, (w₁.perform P cfg ev).1 = .ok (.result r) ∧
      (∀ id, (frequent id → w₂.session.state.scopeOf id = some .major) ∧
        (referenced id → w₂.session.state.scopeOf id = some .enduring) ∧
        (¬ frequent id → ¬ referenced id → w₂.session.state.scopeOf id = w₁.session.state.scopeOf id)) ∧
      (∀ id s s', w₁.session.state.scopeOf id = some s → w₂.session.state.scopeOf id = some s' →
        s' = s ∨ s'.colder = some s) ∧
      r.queryStats.autoPromoted = {id | frequent id ∨ referenced id}.ncard ∧
      ((∀ id, ¬ frequent id ∧ ¬ referenced id) → w₂.session.stores = w₁.session.stores) := by
  intro w₁ w₂ frequent referenced
  have hunbounded : cfg.Unbounded := fun s => by rw [hfree]; cases s <;> rfl
  have hloaded := (open_loaded.ok hopen).2.2.1
  have hopened : ∀ (id : ItemId) (e : Entry), w₀.session.state.items[id]? = some e → e.recent = [] := by
    intro id e he
    rw [(hloaded.entry id e he).1]
    rfl
  have hrecalls := recalls_run (P := P) hunbounded hcadence (tidy_open hopen) hopened
    fun ev' h' => hclean ev' (List.mem_append_left _ h')
  obtain ⟨r, hok⟩ := query_returns P cfg (w := w₁) (hclean ev (by simp)) hop hpattern
  obtain ⟨r', hr', pattern', now, -, hnow, -, -, hitems, -, hpromoted⟩ := perform_query hop hok
  cases hr'
  rw [hcadence] at hpromoted
  obtain ⟨hcount, hsweep⟩ := hpromoted
  have hnow' : now = w₁.queriedAt ev := hnow
  subst hnow'
  have hremembers := hrecalls.answered rfl hok hitems
  have hsame := samePlaces_answered cfg (w₁.prepare ev).session (w₁.queriedAt ev)
    (((w₁.prepare ev).session.hits P q pattern').map (·.1))
  generalize (w₁.prepare ev).session.answered cfg (w₁.queriedAt ev)
    (((w₁.prepare ev).session.hits P q pattern').map (·.1)) = τ at hcount hsweep hremembers hsame
  have hplace : ∀ id, τ.state.place id = w₁.session.state.place id := hsame.place
  have hstores : τ.stores = w₁.session.stores := hsame.stores
  have hstep : w₂.session = τ.autoPromoted P cfg (w₁.queriedAt ev) := hsweep.unbounded hunbounded
  have hscope : ∀ id, τ.state.scopeOf id = w₁.session.state.scopeOf id := fun id => by
    rw [State.scopeOf_eq_place, State.scopeOf_eq_place, hplace]
  have hM : ∀ id, id ∈ promotable cfg τ.state (w₁.queriedAt ev) .major ↔ frequent id := fun id =>
    mem_promotable_major (hscope id) (hremembers id)
  have hE : ∀ id, id ∈ promotable cfg τ.state (w₁.queriedAt ev) .enduring ↔ referenced id := fun id => by
    rw [mem_promotable_enduring, State.Referenced, hscope, citers_congr hplace]
    rfl
  refine ⟨r, hok, fun id => ?_, fun id s s' hs hs' => ?_, ?_, fun hnone => ?_⟩
  · rw [hstep, ← hscope]
    exact ⟨fun h => scopeOf_risen ((hM id).mpr h), fun h => scopeOf_risen ((hE id).mpr h), fun h h' =>
      scopeOf_not_risen (fun hid => h ((hM id).mp hid)) fun hid => h' ((hE id).mp hid)⟩
  · rw [hstep] at hs'
    exact scopeOf_autoPromoted_step ((hscope id).trans hs) hs'
  · simp only [← hM, ← hE]
    exact hcount.trans (promotedCount_eq ..)
  · rw [hstep, autoPromoted_of_none, hstores]
    · exact List.eq_nil_iff_forall_not_mem.mpr fun id hid => (hnone id).2 ((hE id).mp hid)
    · exact List.eq_nil_iff_forall_not_mem.mpr fun id hid => (hnone id).1 ((hM id).mp hid)

/-- More than one access within ten nanoseconds promotes to major. -/
def eager : Settings :=
  { bounds := ⟨none, none, none⟩, evictionPolicy := .lru, demotionTarget := .oneStepThenDrop,
    promotion := ⟨.afterEachQuery, 1, 10, 0⟩ }

/-- The second query that returns an item promotes it. -/
theorem auto_promotion_exact_second_query :
    let evs : List Event := [⟨.add .minor fact, [], []⟩, ⟨.query everything, [], [1]⟩]
    let ev : Event := ⟨.query everything, [], [1]⟩
    let w₁ := World.start.run factPlatform eager evs
    World.start.Frequent factPlatform eager evs ev ⟨0⟩ ∧ ∃ r, (w₁.perform factPlatform eager ev).1 = .ok (.result r) ∧
      (w₁.step factPlatform eager ev).session.state.scopeOf ⟨0⟩ = some .major := by
  intro evs ev w₁
  have hfrequent : World.start.Frequent factPlatform eager evs ev ⟨0⟩ := ⟨by decide +kernel, by decide +kernel⟩
  have hopen : (openSession factPlatform (.const true)).run.run World.start = (.ok (), World.start) := rfl
  obtain ⟨r, hok, hmoves, -⟩ := auto_promotion_exact factPlatform (.const true) hopen eager rfl rfl evs ev
    (by simp [evs, ev, Event.Clean]) everything ⟨none, none, none⟩ rfl rfl
  exact ⟨hfrequent, r, hok, (hmoves ⟨0⟩).1 hfrequent⟩

end Semanticore.Context
