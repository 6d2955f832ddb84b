import Semanticore.Context.AutoPromotion
import Semanticore.Context.Lemmas.Cascade
import Semanticore.Context.Lemmas.Cut
import Semanticore.Context.Promotion

/-!
# The right victims

LRU and LFU order the items of a tier by a field of their entries. That field says what the history of calls says: when
the item was last added or returned, and how many queries have returned it since.
-/

namespace Semanticore.Context
open Semanticore.Core Semanticore.Lib

/-! ## The history -/

/-- The ids a call added. -/
def newIds : Except Halt Reply → List ItemId
  | .ok reply => reply.addedIds
  | .error _ => []

namespace World

variable (P : Platform) (cfg : Settings)

/-- The time of the last call of the run that added `id` or returned it from a query, and `opened` before the first. -/
def lastTouched (opened : Instant) (w : World) (evs : List Event) (id : ItemId) : Instant :=
  ((w.calls P cfg evs).filter fun c =>
    id ∈ newIds (c.1.perform P cfg c.2).1 ∨ id ∈ returnedIds (c.1.perform P cfg c.2).1).getLast?.elim opened
      fun c => c.1.queriedAt c.2

/-- How many queries of the run have returned `id` since it was added. -/
def timesReturned (w : World) (evs : List Event) (id : ItemId) : Nat :=
  ((w.calls P cfg evs).reverse.takeWhile fun c => id ∉ newIds (c.1.perform P cfg c.2).1).countP fun c =>
    id ∈ returnedIds (c.1.perform P cfg c.2).1

/-- By what the policy orders the items after a run, before it goes by id. -/
def historyKey (opened : Instant) (w : World) (evs : List Event) (id : ItemId) : Nat :=
  match cfg.evictionPolicy with
  | .lru => w.lastTouched P cfg opened evs id
  | .lfu => w.timesReturned P cfg evs id
  | .recencyWeighted _ => 0

end World

/-- Of the live items of `s` the victims are `count`, or all if there are fewer, and the least by `key` and then by id. -/
structure Least (key : ItemId → Nat) (st : State) (s : ContextScope) (count : Nat) (victims : List ItemId) : Prop where
  nodup : victims.Nodup
  live : ∀ id ∈ victims, st.scopeOf id = some s
  length : victims.length = min count {id | st.scopeOf id = some s}.ncard
  least : ∀ id ∈ victims, ∀ id', st.scopeOf id' = some s → id' ∉ victims → key id < key id' ∨ key id = key id' ∧ id < id'

variable {P : Platform} {cfg : Settings} {σ τ : Session} {st : State} {w w₀ : World} {ev : Event} {evs : List Event}
  {id : ItemId} {e : Entry} {s : ContextScope} {now opened : Instant} {count : Nat} {key : ItemId → Nat}

/-! ## Selections -/

/-- The entries say what `key` says. -/
def Tracks (cfg : Settings) (key : ItemId → Nat) (σ : Session) : Prop :=
  ∀ (id : ItemId) (e : Entry), σ.state.items[id]? = some e → e.key cfg = key id

theorem least_chosenVictims (hpolicy : ByKey cfg) (h : Tracks cfg key σ) :
    Least key σ.state s count (chosenVictims cfg σ.state now s count) where
  nodup := chosenVictims_nodup
  live _ hid := scopeOf_of_mem_chosenVictims hid
  length := by rw [← State.coe_pool, Set.ncard_coe_finset, State.card_pool, chosenVictims_length]
  least id hid id' hs' hnot := by
    obtain ⟨e, he, -⟩ := State.scopeOf_eq_some.mp (scopeOf_of_mem_chosenVictims hid)
    obtain ⟨e', he', -⟩ := State.scopeOf_eq_some.mp hs'
    have hlt := chosenVictims_least hpolicy hid hs' hnot he he'
    rwa [Prod.Lex.toLex_lt_toLex, h id e he, h id' e' he'] at hlt

/-- Every selection in the log was right, and the next one will be. -/
structure Judged (cfg : Settings) (key : ItemId → Nat) (σ : Session) : Prop where
  tracks : Tracks cfg key σ
  selected : ∀ st s count victims, Mark.selected st s count victims ∈ σ.log → Least key st s count victims

theorem Act.tracks (hact : Act P cfg σ τ) (h : Tracks cfg key σ) : Tracks cfg key τ := by
  intro id e' he'
  obtain ⟨e, he, hmoved⟩ := hact.entry he'
  have hkey : e'.key cfg = e.key cfg := by
    rcases hmoved with rfl | ⟨target, arrival, rfl⟩ <;> rfl
  exact hkey.trans (h id e he)

/-- A selection in the log after an action was there, or is of the state before it. -/
theorem Act.selection {victims : List ItemId} (hact : Act P cfg σ τ) (h : Mark.selected st s count victims ∈ τ.log) :
    Mark.selected st s count victims ∈ σ.log ∨
      st = σ.state ∧ ∃ now, victims = chosenVictims cfg σ.state now s count := by
  cases hact with
  | moved arrival he hne =>
      left
      simpa [Session.moved, Session.note, Session.mapState, Session.deleted, Session.copied, Session.commit] using h
  | dropped he =>
      left
      simpa [Session.dropped, Session.note, Session.mapState, Session.deleted, Session.commit] using h
  | removed he =>
      left
      simpa [Session.removed, Session.mapState, Session.deleted, Session.commit] using h
  | counted promoted demoted => exact Or.inl h
  | selected now scope count' =>
      rcases List.mem_append.mp h with h | h
      · exact Or.inl h
      · cases List.mem_singleton.mp h
        exact Or.inr ⟨rfl, now, rfl⟩

theorem Judged.act (hpolicy : ByKey cfg) (h : Judged cfg key σ) (hact : Act P cfg σ τ) : Judged cfg key τ where
  tracks := hact.tracks h.tracks
  selected st s count victims hmark := by
    rcases hact.selection hmark with hmark | ⟨rfl, now, rfl⟩
    · exact h.selected st s count victims hmark
    · exact least_chosenVictims hpolicy h.tracks

theorem Judged.trail (hpolicy : ByKey cfg) (h : Judged cfg key σ) (htrail : Trail P cfg σ τ) : Judged cfg key τ :=
  htrail.keeps (I := Judged cfg key) (fun hact h => h.act hpolicy hact) h

/-! ## Keys -/

theorem Entry.key_new_lru (hlru : cfg.evictionPolicy = .lru) (item : ContextItem) (scope : ContextScope) (now : Instant) :
    (Entry.new item scope .added now).key cfg = now := by simp [Entry.key, hlru, Entry.new]

theorem Entry.key_new_lfu (hlfu : cfg.evictionPolicy = .lfu) (item : ContextItem) (scope : ContextScope) (now : Instant) :
    (Entry.new item scope .added now).key cfg = 0 := by simp [Entry.key, hlfu, Entry.new]

theorem Entry.key_touch_lru (hlru : cfg.evictionPolicy = .lru) (e : Entry) (now : Instant) :
    (e.touch cfg now).key cfg = now := by simp [Entry.key, hlru, Entry.touch]

theorem Entry.key_touch_lfu (hlfu : cfg.evictionPolicy = .lfu) (e : Entry) (now : Instant) :
    (e.touch cfg now).key cfg = e.key cfg + 1 := by simp [Entry.key, hlfu, Entry.touch]

namespace World

theorem lastTouched_snoc (opened : Instant) (w : World) (evs : List Event) (ev : Event) (id : ItemId) :
    w.lastTouched P cfg opened (evs ++ [ev]) id =
      if id ∈ newIds ((w.run P cfg evs).perform P cfg ev).1 ∨ id ∈ returnedIds ((w.run P cfg evs).perform P cfg ev).1 then
        (w.run P cfg evs).queriedAt ev
      else w.lastTouched P cfg opened evs id := by
  unfold lastTouched
  rw [calls_snoc, List.filter_append, List.filter_singleton]
  by_cases hid : id ∈ newIds ((w.run P cfg evs).perform P cfg ev).1 ∨ id ∈ returnedIds ((w.run P cfg evs).perform P cfg ev).1
  · simp [hid]
  · simp [hid]

theorem timesReturned_snoc (w : World) (evs : List Event) (ev : Event) (id : ItemId) :
    w.timesReturned P cfg (evs ++ [ev]) id =
      if id ∈ newIds ((w.run P cfg evs).perform P cfg ev).1 then 0
      else w.timesReturned P cfg evs id + if id ∈ returnedIds ((w.run P cfg evs).perform P cfg ev).1 then 1 else 0 := by
  unfold timesReturned
  rw [calls_snoc, List.reverse_append, List.reverse_singleton, List.singleton_append, List.takeWhile_cons]
  by_cases hid : id ∈ newIds ((w.run P cfg evs).perform P cfg ev).1
  · simp [hid]
  · simp [hid, List.countP_cons]

/-- A new entry has the key of an item that was just added. -/
theorem key_of_new (hpolicy : ByKey cfg) (hid : id ∈ newIds ((w.run P cfg evs).perform P cfg ev).1) (item : ContextItem)
    (scope : ContextScope) : (Entry.new item scope .added ((w.run P cfg evs).queriedAt ev)).key cfg =
      w.historyKey P cfg opened (evs ++ [ev]) id := by
  unfold historyKey
  rcases hpolicy with hlru | hlfu
  · simp only [hlru, lastTouched_snoc, hid, true_or, if_true, Entry.key_new_lru hlru]
  · simp only [hlfu, timesReturned_snoc, hid, if_true, Entry.key_new_lfu hlfu]

/-- A touched entry has the key of an item that was just returned. -/
theorem key_of_returned (hpolicy : ByKey cfg) (hnew : id ∉ newIds ((w.run P cfg evs).perform P cfg ev).1)
    (hid : id ∈ returnedIds ((w.run P cfg evs).perform P cfg ev).1) (he : e.key cfg = w.historyKey P cfg opened evs id) :
    (e.touch cfg ((w.run P cfg evs).queriedAt ev)).key cfg = w.historyKey P cfg opened (evs ++ [ev]) id := by
  unfold historyKey at he ⊢
  rcases hpolicy with hlru | hlfu
  · simp only [hlru, lastTouched_snoc, hid, or_true, if_true, Entry.key_touch_lru hlru]
  · simp only [hlfu] at he ⊢
    rw [timesReturned_snoc, if_neg hnew, if_pos hid, Entry.key_touch_lfu hlfu, he]

theorem key_of_untouched (hnew : id ∉ newIds ((w.run P cfg evs).perform P cfg ev).1)
    (hid : id ∉ returnedIds ((w.run P cfg evs).perform P cfg ev).1) :
    w.historyKey P cfg opened (evs ++ [ev]) id = w.historyKey P cfg opened evs id := by
  unfold historyKey
  rw [lastTouched_snoc, timesReturned_snoc, if_neg (not_or.mpr ⟨hnew, hid⟩), if_neg hnew, if_neg hid, Nat.add_zero]

end World

/-! ## Calls -/

/-- What a call that returned does to the index before it evicts. -/
inductive Counts (P : Platform) (cfg : Settings) (w : World) : Reply → Session → Prop
  | added {reply : Reply} {items : List ContextItem} (scope : ContextScope) (hadm : Admissible w.session items)
      (hnew : reply.addedIds = idRange w.session.state.nextId items.length) (hreturned : returnedIds (.ok reply) = []) :
      Counts P cfg w reply (w.session.added P scope items w.reading)
  | answered {r : ContextQueryResult} (hnodup : (r.items.map (·.id)).Nodup) :
      Counts P cfg w (.result r) (w.session.answered cfg w.reading (r.items.map (·.id)))
  | nothing {reply : Reply} (hnew : reply.addedIds = []) (hreturned : returnedIds (.ok reply) = []) :
      Counts P cfg w reply w.session

theorem counts_spec (P : Platform) (cfg : Settings) (op : Op) (w : World) : Runs Later (op.exec P cfg) w
    (fun reply w' => ∃ τ, Counts P cfg w reply τ ∧ Trail P cfg τ w'.session) (Halts P cfg op w) := by
  cases op with
  | add scope item =>
      refine Runs.map (add_spec.mono (fun id w' _ h => ?_) fun _ _ _ h => h)
      obtain ⟨rfl, hadm, now, rfl, -, -, htrail⟩ := h
      exact ⟨_, .added scope hadm (by simp [Reply.addedIds, idRange]) rfl, htrail⟩
  | addBatch scope items =>
      refine Runs.map ((addBatch_spec (.addBatch scope items) rfl).mono (fun ids w' _ h => ?_) fun _ _ _ h => h)
      obtain ⟨rfl, hadm, now, rfl, -, -, htrail⟩ := h
      exact ⟨_, .added scope hadm rfl rfl, htrail⟩
  | remove scope id =>
      refine Runs.map (remove_spec.mono (fun found w' _ h => ⟨_, .nothing rfl rfl, ?_⟩) fun _ _ _ h => h)
      cases found with
      | false => exact h.2 ▸ .refl
      | true => exact h.2 ▸ (Act.of_scopeOf h.1).trail
  | query q =>
      refine Runs.map (query_spec.mono (fun r w' _ h => ?_) fun _ _ _ h => h)
      obtain ⟨pattern, now, -, rfl, -, -, hitems, htrail, -⟩ := h
      rw [← rankedAs_ids hitems] at htrail
      exact ⟨_, .answered (rankedAs_ids hitems ▸ hits_nodup _ _ _), htrail⟩
  | promote ids source target =>
      refine Runs.map (promote_spec.mono (fun n w' _ h => ⟨_, .nothing rfl rfl, ?_⟩) fun _ _ _ h => h)
      obtain ⟨-, -, h⟩ := h
      split at h
      · exact h.2 ▸ .refl
      · exact h.2.2
  | evict scope criteria =>
      exact Runs.map (evict_spec.mono (fun n w' _ h => ⟨_, .nothing rfl rfl, h.2⟩) fun _ _ _ h => h)
  | reason scope => exact Runs.map (Runs.exit (.refused (by simp [nyi]) rfl))
  | validateShapes data shapes => exact Runs.map (Runs.exit (.refused (by simp) rfl))
  | evaluateDatalog scope => exact Runs.map (Runs.exit (.refused (by simp) rfl))

/-- The entries of items that a call neither adds nor returns keep telling its history. -/
theorem Tracks.untouched (h : Tracks cfg (w₀.historyKey P cfg opened evs) (w₀.run P cfg evs).session)
    (hnew : newIds ((w₀.run P cfg evs).perform P cfg ev).1 = [])
    (hreturned : returnedIds ((w₀.run P cfg evs).perform P cfg ev).1 = []) :
    Judged cfg (w₀.historyKey P cfg opened (evs ++ [ev])) ((w₀.run P cfg evs).prepare ev).session where
  tracks id e he := by
    rw [World.key_of_untouched (by simp [hnew]) (by simp [hreturned])]
    exact h id e he
  selected _ _ _ _ hmark := (List.not_mem_nil hmark).elim

theorem Tracks.counts {reply : Reply} (hpolicy : ByKey cfg)
    (h : Tracks cfg (w₀.historyKey P cfg opened evs) (w₀.run P cfg evs).session)
    (hok : ((w₀.run P cfg evs).perform P cfg ev).1 = .ok reply)
    (hcounts : Counts P cfg ((w₀.run P cfg evs).prepare ev) reply τ) :
    Judged cfg (w₀.historyKey P cfg opened (evs ++ [ev])) τ := by
  cases hcounts with
  | nothing hnew hreturned => exact h.untouched (by rw [hok]; exact hnew) (by rw [hok]; exact hreturned)
  | @added _ items scope hadm hnew hreturned =>
      have hnew' : newIds ((w₀.run P cfg evs).perform P cfg ev).1 =
          (((w₀.run P cfg evs).prepare ev).session.batch items).map Prod.fst := by
        rw [hok, Session.batch_ids]
        exact hnew
      refine ⟨fun id e he => ?_, fun st s count victims hmark => ?_⟩
      · by_cases hid : id ∈ (((w₀.run P cfg evs).prepare ev).session.batch items).map Prod.fst
        · obtain ⟨⟨_, item⟩, hp, rfl⟩ := List.mem_map.mp hid
          rw [Session.items_added_of_mem hadm.room hp] at he
          cases he
          exact World.key_of_new hpolicy (hnew' ▸ hid) item scope
        · rw [Session.items_added_of_not_mem hadm.room hid] at he
          rw [World.key_of_untouched (hnew' ▸ hid) (by rw [hok, hreturned]; exact List.not_mem_nil)]
          exact h id e he
      · simp [Session.added, Session.mapState, Session.commit, World.prepare] at hmark
  | @answered r hnodup =>
      refine ⟨fun id e he => ?_, fun st s count victims hmark => ?_⟩
      · have hnew : id ∉ newIds ((w₀.run P cfg evs).perform P cfg ev).1 := by
          rw [hok]
          exact List.not_mem_nil
        have hreturned : returnedIds ((w₀.run P cfg evs).perform P cfg ev).1 = r.items.map (·.id) := by rw [hok]; rfl
        rw [items_answered hnodup] at he
        split at he
        · rename_i hid
          obtain ⟨e₀, he₀, rfl⟩ := Option.map_eq_some_iff.mp he
          exact World.key_of_returned hpolicy hnew (hreturned ▸ hid) (h id e₀ he₀)
        · rename_i hid
          rw [World.key_of_untouched hnew (hreturned ▸ hid)]
          exact h id e he
      · rw [log_answered] at hmark
        exact (List.not_mem_nil hmark).elim

theorem Tracks.step (hpolicy : ByKey cfg) (h : Tracks cfg (w₀.historyKey P cfg opened evs) (w₀.run P cfg evs).session)
    (hclean : ev.Clean) :
    Judged cfg (w₀.historyKey P cfg opened (evs ++ [ev])) ((w₀.run P cfg evs).step P cfg ev).session := by
  cases hresult : ((w₀.run P cfg evs).perform P cfg ev).1 with
  | error halt =>
      rw [perform_halted hclean hresult]
      exact h.untouched (by rw [hresult]; rfl) (by rw [hresult]; rfl)
  | ok reply =>
      obtain ⟨τ, hcounts, htrail⟩ := perform_ok (counts_spec P cfg ev.op ((w₀.run P cfg evs).prepare ev)) hresult
      exact (h.counts hpolicy hresult hcounts).trail hpolicy htrail

theorem tracks_run (hpolicy : ByKey cfg) (hopened : Tracks cfg (w₀.historyKey P cfg opened []) w₀.session)
    (hclean : ∀ ev ∈ evs, ev.Clean) : Tracks cfg (w₀.historyKey P cfg opened evs) (w₀.run P cfg evs).session := by
  induction evs using List.reverseRecOn with
  | nil => exact hopened
  | append_singleton evs ev ih =>
      rw [World.run_append]
      exact ((ih fun ev' h' => hclean ev' (by simp [h'])).step hpolicy (hclean ev (by simp))).tracks

/-- In a run without storage failures from an `open` that succeeds, under LRU or LFU, every selection of victims is right by
the history: it takes the asked number of live items of its tier, or all, and of them those that were not added or
returned for longest, or that the fewest queries have returned since they were added or reloaded, the smaller id first.
The call that selects them has added or returned its own items by then. -/
theorem victims_least_by_history (P : Platform) (persistent : Tiers Bool) {w w₀ : World}
    (hopen : (openSession P persistent).run.run w = (.ok (), w₀)) (cfg : Settings) (hpolicy : ByKey cfg) (evs : List Event)
    (ev : Event) (hclean : ∀ ev' ∈ evs ++ [ev], ev'.Clean) :
    ∀ st s count victims, Mark.selected st s count victims ∈ ((w₀.run P cfg evs).step P cfg ev).session.log →
      Least (w₀.historyKey P cfg w.reading (evs ++ [ev])) st s count victims := by
  have hloaded := (open_loaded.ok hopen).2.2.1
  have hopened : Tracks cfg (w₀.historyKey P cfg w.reading []) w₀.session := by
    intro id e he
    rw [(hloaded.entry id e he).1]
    rcases hpolicy with hlru | hlfu
    · simp [Entry.key_new_lru hlru, World.historyKey, hlru, World.lastTouched, World.calls]
    · simp [Entry.key_new_lfu hlfu, World.historyKey, hlfu, World.timesReturned, World.calls]
  have htracks := tracks_run (P := P) hpolicy hopened fun ev' h' => hclean ev' (List.mem_append_left _ h')
  exact (htracks.step hpolicy (hclean ev (by simp))).selected

/-- A query that was cut after the older of two items has made the other one the victim. -/
theorem victims_least_by_history_limit :
    let evs : List Event := [⟨.addBatch .minor [fact], [], []⟩, ⟨.add .minor fact, [], [1]⟩,
      ⟨.query { everything with limit := some 1 }, [], [1]⟩]
    let ev : Event := ⟨.evict .minor (.policy 1), [], [1]⟩
    let log := ((World.start.run factPlatform (manual none) evs).step factPlatform (manual none) ev).session.log
    let key := World.start.historyKey factPlatform (manual none) 0 (evs ++ [ev])
    key ⟨0⟩ = 2 ∧ key ⟨1⟩ = 1 ∧ victimsIn .minor log = [⟨1⟩] ∧
      ∀ st count victims, Mark.selected st .minor count victims ∈ log → Least key st .minor count victims := by
  intro evs ev log key
  have hopen : (openSession factPlatform (.const true)).run.run World.start = (.ok (), World.start) := rfl
  refine ⟨by decide +kernel, by decide +kernel, by decide +kernel, fun st count victims => ?_⟩
  exact victims_least_by_history factPlatform (.const true) hopen (manual none) (Or.inl rfl) evs ev
    (by simp [evs, ev, Event.Clean]) st .minor count victims

end Semanticore.Context
