import Semanticore.Context.Coherence
import Semanticore.Context.Lemmas.Frames
import Semanticore.Context.Lemmas.Opening
import Semanticore.Context.Lemmas.Tidy

/-!
# Items are conserved

The number of live items changes by what is added, removed and evicted, and by nothing else, wherever an operation
fails.
-/

namespace Semanticore.Context
open Semanticore.Core Semanticore.Lib

/-- What is live or was evicted, less what was added. -/
def State.balance (st : State) : ℤ := st.items.size + st.stats.itemsEvicted - st.stats.itemsAdded

/-- The balance did not change. -/
def Balanced (σ σ' : Session) : Prop := σ'.state.balance = σ.state.balance

instance : Std.Refl Balanced := ⟨fun _ => rfl⟩

instance : IsTrans Session Balanced := ⟨fun _ _ _ h h' => h'.trans h⟩

variable {P : Platform} {cfg : Settings} {w : World} {id : ItemId} {scope target : ContextScope} {arrival : Arrival}

/-! ## Sizes -/

theorem contains_of_live {m : Index} {e : Entry} (h : m[id]? = some e) : m.contains id = true :=
  Std.TreeMap.mem_iff_isSome_getElem?.mpr (h ▸ rfl)

theorem size_insert_of_live {m : Index} {e : Entry} (h : m[id]? = some e) (e' : Entry) :
    (m.insert id e').size = m.size := by
  rw [Std.TreeMap.size_insert, contains_of_live h, if_pos rfl]

theorem size_insert_of_new {m : Index} (h : m[id]? = none) (e : Entry) : (m.insert id e).size = m.size + 1 := by
  have hnew : m.contains id = false := by
    rw [Std.TreeMap.contains_eq_isSome_getElem?, h]
    rfl
  rw [Std.TreeMap.size_insert, hnew, if_neg Bool.false_ne_true]

theorem size_erase_of_live {m : Index} {e : Entry} (h : m[id]? = some e) : (m.erase id).size + 1 = m.size := by
  have hpos : 0 < m.size := by
    rw [← Std.TreeMap.length_toList]
    exact List.length_pos_of_mem (mem_toList.mpr h)
  rw [Std.TreeMap.size_erase, contains_of_live h, if_pos rfl]
  omega

/-! ## Moving, dropping and evicting -/

theorem balanced_commit (σ : Session) (scope : ContextScope) (after : Store) : Balanced σ (σ.commit scope after) := rfl

theorem balanced_moveItem : Keeps Balanced (moveItem P id target arrival) w := by
  unfold moveItem
  apply runs_getState
  split
  · exact keeps_throw
  · rename_i e he
    refine Runs.bind (withWrite_frame (balanced_commit · _)) fun _ w₁ _ h₁ => ?_
    refine Runs.bind (withWrite_frame (balanced_commit · _)) fun _ w₂ _ h₂ => ?_
    have hlive : w₂.session.state.items[id]? = some e := by rw [h₂, h₁]; exact he
    refine (keeps_modify ?_).bind fun _ _ => keeps_modify rfl
    simp only [Balanced, State.balance, Session.state_mapState, size_insert_of_live hlive]

theorem balanced_dropItem : Keeps Balanced (dropItem P id) w := by
  unfold dropItem
  apply runs_getState
  split
  · exact keeps_throw
  · rename_i e he
    refine Runs.bind (withWrite_frame (balanced_commit · _)) fun _ w₁ _ h₁ => ?_
    have hlive : w₁.session.state.items[id]? = some e := by rw [h₁]; exact he
    have hsize := size_erase_of_live hlive
    refine (keeps_modify ?_).bind fun _ _ => keeps_modify rfl
    simp only [Balanced, State.balance, Session.state_mapState]
    omega

theorem balanced_evictVictim (scope : ContextScope) (id : ItemId) (w : World) (e : Entry)
    (_ : w.session.state.items[id]? = some e) (_ : e.scope = scope) : Keeps Balanced (evictVictim P cfg scope id) w := by
  unfold evictVictim
  apply runs_getState
  split
  · exact keeps_throw
  · dsimp only
    split
    · exact balanced_moveItem.bind fun _ _ => keeps_modify rfl
    · exact balanced_dropItem

theorem balanced_enforceBounds : Keeps Balanced (enforceBounds P cfg scope) w :=
  keeps_sweep (fun _ _ _ _ => rfl) fun s _ => balanced_evictVictim s

/-! ## Adding -/

/-- A batch of new ids makes the index larger by its length. -/
theorem size_addBatch {st : State} {batch : List (ItemId × ContextItem)} {nextId : UInt64} {now : Instant}
    (hnodup : (batch.map Prod.fst).Nodup) (hnew : ∀ id ∈ batch.map Prod.fst, st.items[id]? = none) :
    (st.addBatch scope batch nextId now).items.size = st.items.size + batch.length := by
  show (batch.foldl (fun items p => items.insert p.1 (Entry.new p.2 scope .added now)) st.items).size = _
  generalize st.items = m at hnew ⊢
  induction batch generalizing m with
  | nil => rfl
  | cons p batch ih =>
      obtain ⟨hp, hbatch⟩ := List.nodup_cons.mp hnodup
      have hstep := size_insert_of_new (hnew p.1 (by simp)) (Entry.new p.2 scope .added now)
      rw [List.foldl_cons, ih hbatch, hstep, List.length_cons]
      · omega
      · intro id hid
        have hne : p.1 ≠ id := fun heq => hp (heq ▸ hid)
        rw [getElem?_insert_ne _ _ hne]
        exact hnew id (by simp [hid])

theorem balanced_addBatch {items : List ContextItem} (htidy : Tidy w.now w.session.state) :
    Keeps Balanced (addBatch P cfg scope items) w := by
  refine keeps_addBatch (balanced_commit · _) (fun σ nextId now hstate hroom => ?_) fun _ => balanced_enforceBounds
  rw [← hstate] at htidy hroom
  have hsize : (σ.state.addBatch scope (σ.batch items) nextId now).items.size =
      σ.state.items.size + (σ.batch items).length := by
    refine size_addBatch (Session.batch_nodup hroom) fun id hid => ?_
    obtain ⟨p, hp, rfl⟩ := List.mem_map.mp hid
    cases hlive : σ.state.items[p.1]? with
    | none => rfl
    | some e => exact absurd (htidy.fresh p.1 e hlive) (not_lt.mpr (Session.mem_batch_ids hroom hp).1)
  unfold Balanced State.balance
  rw [Session.state_mapState, hsize]
  simp only [State.addBatch]
  omega

/-! ## The operations -/

theorem balanced_moveItems {ids : List ItemId} : Keeps Balanced (ids.forM fun id => moveItem P id target arrival) w :=
  Keeps.forM fun _ _ => balanced_moveItem

theorem balanced_counted (σ : Session) (promoted demoted : Nat) : Balanced σ (σ.counted 0 promoted demoted) := rfl

theorem balanced_promote {ids : List ItemId} {source : ContextScope} : Keeps Balanced (promote P cfg ids source target) w :=
  keeps_promote balanced_counted (fun _ _ _ _ _ _ => balanced_moveItem) fun _ => balanced_enforceBounds

theorem balanced_evict {criteria : EvictionCriteria} : Keeps Balanced (evict P cfg scope criteria) w :=
  keeps_evict balanced_counted (fun _ _ _ _ => rfl) (fun _ _ _ _ _ => balanced_dropItem)
    (fun _ _ _ _ _ _ _ => balanced_moveItem) (balanced_evictVictim scope) fun _ _ _ => balanced_enforceBounds

theorem balanced_autoPromote {now : Instant} : Keeps Balanced (autoPromote P cfg now) w := by
  unfold autoPromote
  apply runs_getState
  refine balanced_moveItems.bind fun _ w₁ => balanced_moveItems.bind fun _ w₂ => ?_
  refine (keeps_modify rfl).bind fun _ w₃ => ?_
  split
  · exact balanced_enforceBounds.bind fun _ _ => keeps_ret
  · split
    · exact balanced_enforceBounds.bind fun _ _ => keeps_ret
    · exact keeps_ret

theorem balanced_access {now : Instant} (hit : ItemId × ContextScope) (w : World) : Keeps Balanced (access cfg now hit) w := by
  unfold access
  apply runs_getState
  split
  · exact keeps_throw
  · rename_i e he
    refine (keeps_modify ?_).bind fun _ _ => keeps_ret
    unfold Balanced State.balance
    rw [Session.state_mapState, size_insert_of_live he]

theorem balanced_answer {q : ContextQuery} : Keeps Balanced (answer P cfg q) w := by
  unfold answer
  refine Runs.bind liftExcept_frame fun pattern w₀ _ _ => ?_
  refine (Keeps.mapM fun scope w => ?_).bind fun consulted w₁ => ?_
  · unfold consult
    exact Runs.bind transaction_frame fun _ _ _ _ => runs_getSession keeps_ret
  refine Runs.bind instantNow_frame fun now w₂ _ _ => ?_
  exact (Keeps.mapM balanced_access).bind fun items w₃ => (keeps_modify rfl).bind fun _ _ => keeps_ret

theorem balanced_query {q : ContextQuery} : Keeps Balanced (query P cfg q) w := by
  unfold query
  refine balanced_answer.bind fun r w₁ => ?_
  obtain ⟨now, quadsMatched, items⟩ := r
  cases cfg.promotion.cadence with
  | afterEachQuery => exact balanced_autoPromote.bind fun _ _ => keeps_ret
  | never => exact keeps_ret

/-- `remove` makes the index smaller by one when it returns `true`. -/
theorem remove_balance : Runs Later (remove P scope id) w
    (fun found w' => w'.session.state.balance + (if found then 1 else 0) = w.session.state.balance)
    (fun _ w' => Balanced w.session w'.session) := by
  unfold remove
  apply runs_getState
  split
  · exact Runs.ret (by simp)
  · rename_i hscope
    obtain ⟨e, he, -⟩ := State.scopeOf_eq_some.mp (by simpa using hscope)
    refine (delete_spec.mono (fun _ _ _ h => h) fun h w' hR hh => ?_).bind fun _ w' _ hw' => ?_
    · rw [hh.left]
      rfl
    · apply runs_modifySession
      refine Runs.ret ?_
      have hsize := size_erase_of_live he
      simp only [State.balance, Session.state_mapState, hw', Session.state_deleted, if_true]
      omega

/-! ## Runs -/

/-- The result is that of a `remove` that found its item. -/
def removedItem : Except Halt Reply → Bool
  | .ok (.removed found) => found
  | _ => false

/-- The number of `remove` calls of a run that returned `true`. -/
def World.removals (P : Platform) (cfg : Settings) (w : World) : List Event → Nat
  | [] => 0
  | ev :: evs => (if removedItem (w.perform P cfg ev).1 then 1 else 0) + (w.step P cfg ev).removals P cfg evs

variable {ev : Event} {evs : List Event}

/-- The balance of an operation: only a successful removal changes it. -/
def Accounted (σ : Session) (r : Except Halt Reply) (w' : World) : Prop :=
  w'.session.state.balance + (if removedItem r then 1 else 0) = σ.state.balance

theorem accounted_of_keeps {α : Type} {x : SessionM α} {f : α → Reply} (hf : ∀ a, removedItem (.ok (f a)) = false)
    (h : Keeps Balanced x w) : Accounted w.session ((f <$> x).run.run w).1 ((f <$> x).run.run w).2 := by
  have hmap : Runs (Over Balanced) (f <$> x) w (fun reply _ => removedItem (.ok reply) = false) fun _ _ => True :=
    Runs.map (h.mono (fun a _ _ _ => hf a) fun _ _ _ h => h)
  refine hmap.result (C := Accounted w.session) (fun reply w' hR hreply => ?_) fun e w' hR _ => ?_
  · rw [Accounted, hreply]
    exact (add_zero _).trans hR
  · exact (add_zero _).trans hR

theorem op_accounted (op : Op) (htidy : Tidy w.now w.session.state) :
    Accounted w.session ((op.exec P cfg).run.run w).1 ((op.exec P cfg).run.run w).2 := by
  cases op with
  | add scope item =>
      refine accounted_of_keeps (fun _ => rfl) ((balanced_addBatch htidy).bind fun ids w' => ?_)
      cases ids with
      | nil => exact keeps_throw
      | cons id ids => exact keeps_ret
  | addBatch scope items => exact accounted_of_keeps (fun _ => rfl) (balanced_addBatch htidy)
  | remove scope id =>
      refine (Runs.map (f := Reply.removed) (Q := fun reply w' => Accounted w.session (.ok reply) w')
        (remove_balance.mono (fun found w' _ h => h) fun _ _ _ h => h)).result (C := Accounted w.session)
        (fun _ _ _ h => h) fun e w' _ h => ?_
      exact (add_zero _).trans h
  | query q => exact accounted_of_keeps (fun _ => rfl) balanced_query
  | promote ids source target => exact accounted_of_keeps (fun _ => rfl) balanced_promote
  | evict scope criteria => exact accounted_of_keeps (fun _ => rfl) balanced_evict
  | reason scope => exact accounted_of_keeps (fun _ => rfl) keeps_throw
  | validateShapes data shapes => exact accounted_of_keeps (fun _ => rfl) keeps_throw
  | evaluateDatalog scope => exact accounted_of_keeps (fun _ => rfl) keeps_throw

theorem balance_run (P : Platform) (cfg : Settings) (htidy : Tidy w.now w.session.state) (evs : List Event) :
    (w.run P cfg evs).session.state.balance + w.removals P cfg evs = w.session.state.balance := by
  induction evs generalizing w with
  | nil => simp [World.removals]
  | cons ev evs ih =>
      have hstep : Accounted (w.prepare ev).session (w.perform P cfg ev).1 (w.step P cfg ev) :=
        op_accounted ev.op htidy
      have hrest := ih (htidy.step : Tidy (w.step P cfg ev).now (w.step P cfg ev).session.state)
      have hprep : (w.prepare ev).session.state = w.session.state := rfl
      rw [World.run_cons, World.removals]
      unfold Accounted at hstep
      rw [hprep] at hstep
      push_cast
      omega

/-- Items are conserved: in every state of every run from an `open`, the items that are live are those that were loaded
and added, less those that were removed and evicted. -/
theorem items_conserved (P : Platform) (cfg : Settings) (persistent : Tiers Bool) (w w₀ : World)
    (hopen : (openSession P persistent).run.run w = (.ok (), w₀)) (evs : List Event) :
    (w₀.run P cfg evs).session.state.items.size + w₀.removals P cfg evs +
        (w₀.run P cfg evs).session.state.stats.itemsEvicted =
      w₀.session.state.items.size + (w₀.run P cfg evs).session.state.stats.itemsAdded := by
  have hrun := balance_run P cfg (tidy_open hopen) evs
  have hzero : w₀.session.state.stats = .zero := (open_loaded.ok hopen).2.2.1.stats
  unfold State.balance at hrun
  simp only [hzero, SessionStats.zero] at hrun
  omega

/-- A batch over the bound, an `add` whose enforcement fails after the item was recorded, and a removal. -/
theorem items_conserved_failed_eviction :
    let evs : List Event := [⟨.addBatch .minor [note, note], [], []⟩, ⟨.add .minor note, [.commit, .fail], []⟩,
      ⟨.remove .minor ⟨1⟩, [], []⟩]
    let st := (World.start.run notePlatform (manual (some 1)) evs).session.state
    st.items.keys = [⟨2⟩] ∧
      st.items.size + World.start.removals notePlatform (manual (some 1)) evs + st.stats.itemsEvicted =
        World.start.session.state.items.size + st.stats.itemsAdded := by
  intro evs st
  have hopen : (openSession notePlatform (.const true)).run.run World.start = (.ok (), World.start) := rfl
  exact ⟨by decide +kernel, items_conserved notePlatform (manual (some 1)) (.const true) World.start World.start hopen evs⟩

end Semanticore.Context
