import Semanticore.Context.Attempts
import Semanticore.Context.Lemmas.Frames

/-!
# Where the Session's programs can be stopped

The points at which each program issues its transactions.
-/

namespace Semanticore.Context
open Semanticore.Core Semanticore.Lib

/-! ## Points -/

namespace Session

variable (P : Platform) (cfg : Settings)

/-- A move writes to the target store, then deletes from the current one. -/
def movePoints (target : ContextScope) (σ : Session) (id : ItemId) : List Session :=
  match σ.state.items[id]? with
  | none => []
  | some e => [σ, σ.copied P id e.item target]

def dropPoints (σ : Session) (id : ItemId) : List Session :=
  match σ.state.items[id]? with
  | none => []
  | some _ => [σ]

def evictPoints (scope : ContextScope) (σ : Session) (id : ItemId) : List Session :=
  match σ.state.items[id]? with
  | none => []
  | some e => match evictionTarget cfg scope e.arrival with
      | some colder => [σ, σ.copied P id e.item colder]
      | none => [σ]

end Session

/-- The points of a loop over ids whose body has the effect `g`. -/
def along (points : Session → ItemId → List Session) (g : Session → ItemId → Session) :
    Session → List ItemId → List Session
  | _, [] => []
  | σ, id :: ids => points σ id ++ along points g (g σ id) ids

namespace Moment

variable (P : Platform) (cfg : Settings) (m : Moment)

def tierPoints (scope : ContextScope) : List Session :=
  if m.session.excess cfg scope = 0 then []
  else along (Session.evictPoints P cfg scope) (Session.evictVictim P cfg scope)
    (m.session.selected cfg m.reading scope (m.session.excess cfg scope))
    (chosenVictims cfg m.session.state m.reading scope (m.session.excess cfg scope))

/-- The clock is read only if there is something to evict. -/
def enforceTier (scope : ContextScope) : Moment :=
  if m.session.excess cfg scope = 0 then m else m.tick.put (m.session.enforceTier P cfg m.reading scope)

def sweepPoints : List ContextScope → Moment → List Session
  | [], _ => []
  | scope :: rest, m => m.tierPoints P cfg scope ++ sweepPoints rest (m.enforceTier P cfg scope)

def sweep (scopes : List ContextScope) : Moment := scopes.foldl (Moment.enforceTier P cfg) m

end Moment

variable {P : Platform} {cfg : Settings} {m m' : Moment} {α β : Type} {points : List Session} {σ : Session}
  {id : ItemId} {ids : List ItemId} {e : Entry} {scope target : ContextScope} {arrival : Arrival}

/-! ## Relations that programs keep -/

/-- What a program keeps holds at every point and at the end. -/
theorem Attempts.of_keeps {R : Session → Session → Prop} {x : SessionM α} {r : Except Halt α}
    (h : Attempts x m points r m') (hkeeps : ∀ fates, Keeps R x (m.world fates)) :
    (∀ σ ∈ points, R m.session σ) ∧ R m.session m'.session := by
  refine ⟨fun σ hσ => ?_, ?_⟩
  · obtain ⟨fates, w, hw, rfl⟩ := h.at_point hσ
    have hstep := (hkeeps fates).step
    rw [hw] at hstep
    exact hstep
  · have hstep := (hkeeps []).step
    rw [h.ends (stopped_eq_none.mpr fun j hj => by cases hj)] at hstep
    exact hstep

/-! ## Primitives -/

theorem attempts_getState {f : State → SessionM α} {r : Except Halt α}
    (h : Attempts (f m.session.state) m points r m') : Attempts (getState >>= f) m points r m' := h

theorem attempts_transaction : Attempts transaction m [m.session] (.ok ()) m := by
  intro fates
  cases fates with
  | nil => rfl
  | cons fate fates =>
      cases fate with
      | commit => rfl
      | fail => exact ⟨_, rfl, rfl⟩

theorem attempts_instantNow : Attempts instantNow m [] (.ok m.reading) m.tick := by
  refine Attempts.quiet fun fates => ?_
  obtain ⟨σ, elapsed, now⟩ := m
  cases elapsed <;> rfl

theorem attempts_modify {f : Session → Session} : Attempts (modifySession f) m [] (.ok ()) (m.put (f m.session)) :=
  Attempts.quiet fun _ => rfl

theorem attempts_withWrite {f : Store → Store} : Attempts (withWrite scope f) m [m.session] (.ok ())
    (m.put (m.session.commit scope (f (m.session.stores.get scope)))) :=
  attempts_transaction.bind attempts_modify

theorem attempts_delete : Attempts (delete P scope id) m [m.session] (.ok ()) (m.put (m.session.deleted P id scope)) :=
  attempts_withWrite

theorem attempts_liftExcept {a : α} : Attempts (liftExcept (.ok a)) m [] (.ok a) m := .ret

/-! ## Moving, dropping and evicting -/

theorem attempts_moveItem (he : m.session.state.items[id]? = some e) : Attempts (moveItem P id target arrival) m
    (m.session.movePoints P target id) (.ok ()) (m.put (m.session.moveItem P target arrival id)) := by
  unfold moveItem Session.movePoints
  apply attempts_getState
  simp only [he, Session.moveItem_of_live he]
  exact attempts_withWrite.bind (attempts_delete.bind (attempts_modify.bind attempts_modify))

theorem attempts_dropItem (he : m.session.state.items[id]? = some e) : Attempts (dropItem P id) m
    (m.session.dropPoints id) (.ok ()) (m.put (m.session.dropItem P id)) := by
  unfold dropItem Session.dropPoints
  apply attempts_getState
  simp only [he, Session.dropItem_of_live he]
  exact attempts_delete.bind (attempts_modify.bind attempts_modify)

theorem attempts_evictVictim (he : m.session.state.items[id]? = some e) : Attempts (evictVictim P cfg scope id) m
    (m.session.evictPoints P cfg scope id) (.ok ()) (m.put (m.session.evictVictim P cfg scope id)) := by
  unfold evictVictim Session.evictPoints Session.evictVictim
  apply attempts_getState
  have hmove (colder : ContextScope) : Attempts (moveItem P id colder .demoted) m _ _ _ := attempts_moveItem he
  have hdrop := attempts_dropItem (P := P) he
  simp only [Session.movePoints, Session.dropPoints, he, Session.moveItem_of_live he, Session.dropItem_of_live he]
    at hmove hdrop
  cases hcolder : evictionTarget cfg scope e.arrival with
  | some colder =>
      simp only [he, hcolder]
      exact (hmove colder).bind attempts_modify
  | none =>
      simp only [he, hcolder]
      exact hdrop

/-! ## Loops -/

theorem attempts_forM (Pre : List ItemId → Session → Prop) {f : ItemId → SessionM PUnit}
    {points : Session → ItemId → List Session} {g : Session → ItemId → Session}
    (hstep : ∀ id rest m, Pre (id :: rest) m.session →
      Attempts (f id) m (points m.session id) (.ok ⟨⟩) (m.put (g m.session id)))
    (hkeep : ∀ id rest σ, Pre (id :: rest) σ → Pre rest (g σ id)) (hpre : Pre ids m.session) :
    Attempts (ids.forM f) m (along points g m.session ids) (.ok ⟨⟩) (m.put (ids.foldl g m.session)) := by
  induction ids generalizing m with
  | nil => exact .ret
  | cons id ids ih =>
      exact (hstep id ids m hpre).bind (ih (m := m.put (g m.session id)) (hkeep id ids m.session hpre))

theorem attempts_moveItems (h : Movable target ids m.session) :
    Attempts (ids.forM fun id => moveItem P id target arrival) m
      (along (Session.movePoints P target) (fun σ id => σ.moveItem P target arrival id) m.session ids) (.ok ⟨⟩)
      (m.put (m.session.moveItems P ids target arrival)) := by
  refine attempts_forM (Movable target) (fun id rest m h => ?_) (fun id rest σ h => h.next P arrival) h
  obtain ⟨e, he, -⟩ := h.2 id (by simp)
  exact attempts_moveItem he

theorem attempts_evictVictims (h : Evictable scope ids m.session) :
    Attempts (evictVictims P cfg scope ids) m
      (along (Session.evictPoints P cfg scope) (Session.evictVictim P cfg scope) m.session ids) (.ok ⟨⟩)
      (m.put (m.session.evictVictims P cfg scope ids)) := by
  refine attempts_forM (Evictable scope) (fun id rest m h => ?_) (fun id rest σ h => h.next P cfg) h
  obtain ⟨e, he, -⟩ := h.2 id (by simp)
  exact attempts_evictVictim he

theorem attempts_victims {count : Nat} : Attempts (victims cfg scope count) m []
    (.ok (chosenVictims cfg m.session.state m.reading scope count))
    (m.tick.put (m.session.selected cfg m.reading scope count)) :=
  attempts_instantNow.bind (attempts_getState (attempts_modify.bind .ret))

/-! ## Bounds -/

theorem attempts_enforceTier : Attempts (enforceTier P cfg scope) m (m.tierPoints P cfg scope) (.ok ⟨⟩)
    (m.enforceTier P cfg scope) := by
  unfold enforceTier Moment.tierPoints Moment.enforceTier
  cases hbound : cfg.bounds.get scope with
  | none =>
      have hexcess : m.session.excess cfg scope = 0 := by simp [Session.excess, hbound]
      simp only [hexcess, if_true]
      exact .ret
  | some bound =>
      have hexcess : m.session.excess cfg scope = m.session.state.itemCount scope - bound := by
        simp [Session.excess, hbound]
      apply attempts_getState
      by_cases hlt : bound < m.session.state.itemCount scope
      · have hpos : m.session.excess cfg scope ≠ 0 := by omega
        simp only [if_pos hlt, if_neg hpos, Session.enforceTier, ← hexcess]
        exact attempts_victims.bind (attempts_evictVictims (evictable_chosenVictims ..))
      · have hzero : m.session.excess cfg scope = 0 := by omega
        simp only [if_neg hlt, if_pos hzero]
        exact .ret

theorem attempts_sweep {scopes : List ContextScope} : Attempts (scopes.forM (enforceTier P cfg)) m
    (Moment.sweepPoints P cfg scopes m) (.ok ⟨⟩) (m.sweep P cfg scopes) := by
  induction scopes generalizing m with
  | nil => exact .ret
  | cons scope scopes ih => exact attempts_enforceTier.bind ih

theorem sweep_of_moment (P : Platform) (cfg : Settings) (m : Moment) (scopes : List ContextScope) :
    Sweep P cfg scopes m.session (m.sweep P cfg scopes).session := by
  induction scopes generalizing m with
  | nil => exact .nil
  | cons scope scopes ih =>
      refine .cons m.reading ?_
      have hsession : (m.enforceTier P cfg scope).session = m.session.enforceTier P cfg m.reading scope := by
        unfold Moment.enforceTier Session.enforceTier
        split <;> rfl
      rw [← hsession]
      exact ih _

/-! ## Operations -/

theorem attempts_validate {st : State} {items : List ContextItem} (h : ∀ item ∈ items, validate st item = .ok ()) :
    Attempts (items.forM fun item => liftExcept (validate st item)) m [] (.ok ⟨⟩) m := by
  induction items with
  | nil => exact .ret
  | cons item items ih =>
      have hitem : Attempts (liftExcept (validate st item)) m [] (.ok ()) m := by
        rw [h item (by simp)]
        exact attempts_liftExcept
      exact hitem.bind (ih fun item' hitem' => h item' (by simp [hitem']))

theorem attempts_checkedAdd {a : UInt64} {k : Nat} (h : a.toNat + k < 2 ^ 64) :
    Attempts (checkedAdd a k) m [] (.ok (a + UInt64.ofNat k)) m := by
  unfold checkedAdd
  rw [if_pos h]
  exact .ret

/-- The moment at which `add_batch` starts to enforce bounds. -/
def Moment.added (P : Platform) (m : Moment) (scope : ContextScope) (items : List ContextItem) : Moment :=
  m.tick.put (m.session.added P scope items m.reading)

theorem attempts_addBatch {items : List ContextItem} (hadm : Admissible m.session items) :
    Attempts (addBatch P cfg scope items) m
      (m.session :: Moment.sweepPoints P cfg scope.andColder (m.added P scope items))
      (.ok (idRange m.session.state.nextId items.length)) ((m.added P scope items).sweep P cfg scope.andColder) := by
  unfold addBatch
  apply attempts_getState
  refine (attempts_validate hadm.valid).bind ((attempts_checkedAdd hadm.room).bind ?_)
  rw [← List.append_nil (Moment.sweepPoints ..)]
  refine attempts_withWrite.bind (attempts_instantNow.bind (attempts_modify.bind ?_))
  exact (attempts_sweep (m := m.added P scope items)).bind .ret

/-- The check that fails refuses the batch before its transaction. -/
theorem attempts_validate_refused {st : State} {items : List ContextItem}
    (h : ¬ ∀ item ∈ items, validate st item = .ok ()) :
    ∃ e, Attempts (items.forM fun item => liftExcept (validate st item)) m [] (.error (.err e)) m := by
  induction items with
  | nil => exact (h fun _ hmem => (List.not_mem_nil hmem).elim).elim
  | cons item items ih =>
      cases hitem : validate st item with
      | error e =>
          have hone : Attempts (liftExcept (validate st item)) m [] (.error (.err e)) m := by
            rw [hitem]
            exact .exit
          exact ⟨e, hone.bind_exit⟩
      | ok u =>
          have hone : Attempts (liftExcept (validate st item)) m [] (.ok ()) m := by
            rw [hitem]
            exact attempts_liftExcept
          obtain ⟨e, hrest⟩ := ih fun hall => h (List.forall_mem_cons.mpr ⟨hitem, hall⟩)
          exact ⟨e, hone.bind hrest⟩

theorem attempts_addBatch_invalid (P : Platform) (cfg : Settings) (scope : ContextScope) {items : List ContextItem}
    (h : ¬ ∀ item ∈ items, validate m.session.state item = .ok ()) :
    ∃ e, Attempts (addBatch P cfg scope items) m [] (.error (.err e)) m := by
  obtain ⟨e, hrefused⟩ := attempts_validate_refused (m := m) h
  exact ⟨e, attempts_getState hrefused.bind_exit⟩

theorem attempts_addBatch_full {items : List ContextItem} (hvalid : ∀ item ∈ items, validate m.session.state item = .ok ())
    (hfull : 2 ^ 64 ≤ m.session.state.nextId.toNat + items.length) :
    Attempts (addBatch P cfg scope items) m [] (.error .panic) m := by
  refine attempts_getState ((attempts_validate hvalid).bind (Attempts.bind_exit ?_))
  unfold checkedAdd
  rw [if_neg (not_lt.mpr hfull)]
  exact .exit

section
variable {op : Op} {items : List ContextItem}

theorem batch_cases (h : op.batch = some (scope, items)) :
    (∃ item, op = .add scope item ∧ items = [item]) ∨ op = .addBatch scope items := by
  unfold Op.batch at h
  split at h
  · cases h
    exact Or.inl ⟨_, rfl, rfl⟩
  · cases h
    exact Or.inr rfl
  · cases h

theorem attempts_added (P : Platform) (cfg : Settings) (hop : op.batch = some (scope, items))
    (hadm : Admissible m.session items) :
    ∃ reply : Reply, reply.addedIds = idRange m.session.state.nextId items.length ∧
      Attempts (op.exec P cfg) m
        (m.session :: Moment.sweepPoints P cfg scope.andColder (m.added P scope items)) (.ok reply)
        ((m.added P scope items).sweep P cfg scope.andColder) := by
  have hbatch : Attempts (addBatch P cfg scope items) m _ _ _ := attempts_addBatch hadm
  rcases batch_cases hop with ⟨item, rfl, rfl⟩ | rfl
  · have hids : idRange m.session.state.nextId [item].length = [⟨m.session.state.nextId⟩] := by simp [idRange]
    rw [hids] at hbatch
    refine ⟨.id ⟨m.session.state.nextId⟩, hids.symm, Attempts.map ?_⟩
    rw [← List.append_nil (m.session :: _)]
    exact hbatch.bind .ret
  · exact ⟨.ids _, rfl, hbatch.map⟩

/-- A batch that is refused before its transaction refuses the call. -/
theorem attempts_add_refused {halt : Halt} (hop : op.batch = some (scope, items))
    (h : Attempts (addBatch P cfg scope items) m [] (.error halt) m) : Attempts (op.exec P cfg) m [] (.error halt) m := by
  rcases batch_cases hop with ⟨item, rfl, rfl⟩ | rfl
  · exact h.bind_exit.map_exit
  · exact h.map_exit

theorem attempts_add_inadmissible (P : Platform) (cfg : Settings) (hop : op.batch = some (scope, items))
    (hadm : ¬ Admissible m.session items) :
    ∃ halt, Attempts (op.exec P cfg) m [] (.error halt) m := by
  by_cases hvalid : ∀ item ∈ items, validate m.session.state item = .ok ()
  · have hfull := not_lt.mp fun hroom => hadm ⟨hvalid, hroom⟩
    exact ⟨.panic, attempts_add_refused hop (attempts_addBatch_full hvalid hfull)⟩
  · obtain ⟨e, hinvalid⟩ := attempts_addBatch_invalid P cfg scope hvalid
    exact ⟨.err e, attempts_add_refused hop hinvalid⟩

end

theorem attempts_checkInScope (h : ∀ id ∈ ids, m.session.state.scopeOf id = some scope) :
    Attempts (liftExcept (checkInScope m.session.state ids scope)) m [] (.ok ids.eraseDups) m := by
  rw [checkInScope_ok.mpr ⟨rfl, h⟩]
  exact attempts_liftExcept

/-- The moment at which a call that moves items starts to enforce bounds. -/
def Moment.shifted (P : Platform) (m : Moment) (ids : List ItemId) (target : ContextScope) (arrival : Arrival)
    (promoted demoted : Nat) : Moment :=
  m.put ((m.session.moveItems P ids target arrival).counted 0 promoted demoted)

/-- The points of a call that moves items and then enforces bounds. -/
def Moment.shiftPoints (P : Platform) (cfg : Settings) (m : Moment) (ids : List ItemId) (target : ContextScope)
    (arrival : Arrival) (promoted demoted : Nat) : List Session :=
  along (Session.movePoints P target) (fun σ id => σ.moveItem P target arrival id) m.session ids ++
    Moment.sweepPoints P cfg target.andColder (m.shifted P ids target arrival promoted demoted)

section
variable {source : ContextScope}

theorem attempts_promote (hall : ∀ id ∈ ids, m.session.state.scopeOf id = some source) (hlt : source < target) :
    Attempts (promote P cfg ids source target) m
      (m.shiftPoints P cfg ids.eraseDups target .promoted ids.eraseDups.length 0) (.ok ids.eraseDups.length)
      ((m.shifted P ids.eraseDups target .promoted ids.eraseDups.length 0).sweep P cfg target.andColder) := by
  unfold promote Moment.shiftPoints
  rw [← List.append_nil (Moment.sweepPoints ..)]
  simp only [if_neg hlt.le.not_gt]
  apply attempts_getState
  refine (attempts_checkInScope hall).bind ?_
  simp only [if_neg hlt.ne']
  refine (attempts_moveItems (movable_of_scopeOf hall hlt.ne')).bind (attempts_modify.bind ?_)
  exact (attempts_sweep (m := m.shifted P ids.eraseDups target .promoted ids.eraseDups.length 0)).bind .ret

theorem attempts_demote (hall : ∀ id ∈ ids, m.session.state.scopeOf id = some scope) (hlt : target < scope) :
    Attempts (evict P cfg scope (.demote ids target)) m
      (m.shiftPoints P cfg ids.eraseDups target .demoted 0 ids.eraseDups.length) (.ok ids.eraseDups.length)
      ((m.shifted P ids.eraseDups target .demoted 0 ids.eraseDups.length).sweep P cfg target.andColder) := by
  unfold evict Moment.shiftPoints
  rw [← List.append_nil (Moment.sweepPoints ..)]
  simp only [if_neg hlt.not_ge]
  apply attempts_getState
  refine (attempts_checkInScope hall).bind ?_
  refine (attempts_moveItems (movable_of_scopeOf hall hlt.ne)).bind (attempts_modify.bind ?_)
  exact (attempts_sweep (m := m.shifted P ids.eraseDups target .demoted 0 ids.eraseDups.length)).bind .ret

end

/-! ## Queries -/

theorem attempts_consult {pattern : QuadPattern} : Attempts (consult P pattern scope) m [m.session]
    (.ok (m.session.consulted P pattern scope)) m :=
  attempts_transaction.bind (show Attempts (get >>= _) m [] _ m from Attempts.quiet fun _ => rfl)

theorem attempts_consulted {pattern : QuadPattern} {scopes : List ContextScope} :
    Attempts (scopes.mapM (consult P pattern)) m (List.replicate scopes.length m.session)
      (.ok (scopes.map (m.session.consulted P pattern))) m := by
  induction scopes with
  | nil => exact .ret
  | cons scope scopes ih =>
      rw [List.mapM_cons, ← List.append_nil (List.replicate ..), List.length_cons, List.replicate_succ]
      have hone : Attempts (consult P pattern scope) m [m.session] _ m := attempts_consult
      exact hone.bind (ih.bind .ret)

/-- The result for a hit. -/
def Session.ranked (σ : Session) (hit : ItemId × ContextScope) : Option RankedItem :=
  (σ.state.place hit.1).map fun p => { id := hit.1, item := p.1, score := 1.0, sourceScope := hit.2 }

theorem attempts_accesses {now : Instant} {hits : List (ItemId × ContextScope)}
    (hlive : ∀ hit ∈ hits, ∃ p, m.session.state.place hit.1 = some p) :
    Attempts (hits.mapM (access cfg now)) m [] (.ok (hits.filterMap m.session.ranked))
      (m.put ((hits.map (·.1)).foldl (Session.access cfg now) m.session)) := by
  induction hits generalizing m with
  | nil => exact .ret
  | cons hit hits ih =>
      obtain ⟨p, hp⟩ := hlive hit (by simp)
      obtain ⟨e, he, rfl⟩ := Option.map_eq_some_iff.mp hp
      have hranked : (m.session.access cfg now hit.1).ranked = m.session.ranked := by
        funext hit'
        rw [Session.ranked, Session.ranked, Session.place_access]
      have hone : Attempts (access cfg now hit) m []
          (.ok { id := hit.1, item := e.item, score := 1.0, sourceScope := hit.2 })
          (m.put (m.session.access cfg now hit.1)) := by
        unfold access
        apply attempts_getState
        simp only [he, Session.access_of_live he]
        exact attempts_modify.bind .ret
      have hrest := ih (m := m.put (m.session.access cfg now hit.1)) fun hit' hhit' => by
        obtain ⟨p', hp'⟩ := hlive hit' (by simp [hhit'])
        exact ⟨p', (Session.place_access ..).trans hp'⟩
      rw [List.mapM_cons]
      have hhead : m.session.ranked hit = some { id := hit.1, item := e.item, score := 1.0, sourceScope := hit.2 } := by
        rw [Session.ranked, hp]
        rfl
      rw [show (m.put (m.session.access cfg now hit.1)).session.ranked = m.session.ranked from hranked] at hrest
      rw [List.filterMap_cons_some hhead]
      exact hone.bind (hrest.bind .ret)

/-- The moment at which auto-promotion starts. -/
def Moment.answered (P : Platform) (cfg : Settings) (m : Moment) (q : ContextQuery) (pattern : QuadPattern) : Moment :=
  m.tick.put (m.session.answered cfg m.reading ((m.session.hits P q pattern).map (·.1)))

theorem attempts_answer {q : ContextQuery} {pattern : QuadPattern} (hpattern : queryPattern q = .ok pattern) :
    Attempts (answer P cfg q) m (List.replicate q.scopes.scopes.length m.session)
      (.ok (m.reading, ((q.scopes.scopes.map (m.session.consulted P pattern)).map (·.1)).sum,
        (m.session.hits P q pattern).filterMap m.session.ranked))
      (m.answered P cfg q pattern) := by
  unfold answer
  rw [hpattern, ← List.append_nil (List.replicate ..)]
  refine attempts_liftExcept.bind (attempts_consulted.bind (attempts_instantNow.bind ?_))
  have hlive : ∀ hit ∈ m.session.hits P q pattern, ∃ p, m.tick.session.state.place hit.1 = some p := by
    intro hit hhit
    obtain ⟨e, he, -⟩ := State.scopeOf_eq_some.mp (scopeOf_of_mem_hits hhit)
    exact ⟨_, State.place_of_live he⟩
  exact (attempts_accesses hlive).bind (attempts_modify.bind .ret)

/-- The points of auto-promotion. -/
def Moment.promotePoints (P : Platform) (cfg : Settings) (m : Moment) (now : Instant) : List Session :=
  let toEnduring := promotable cfg m.session.state now .enduring
  let toMajor := promotable cfg m.session.state now .major
  along (Session.movePoints P .enduring) (fun σ id => σ.moveItem P .enduring .promoted id) m.session toEnduring ++
    (along (Session.movePoints P .major) (fun σ id => σ.moveItem P .major .promoted id)
        (m.session.moveItems P toEnduring .enduring .promoted) toMajor ++
      Moment.sweepPoints P cfg (m.session.promotedInto cfg now) (m.put (m.session.autoPromoted P cfg now)))

theorem attempts_autoPromote {now : Instant} : Attempts (autoPromote P cfg now) m (m.promotePoints P cfg now)
    (.ok (m.session.promotedCount cfg now))
    ((m.put (m.session.autoPromoted P cfg now)).sweep P cfg (m.session.promotedInto cfg now)) := by
  unfold autoPromote Moment.promotePoints
  apply attempts_getState
  refine (attempts_moveItems (movable_promotable m.session now .enduring)).bind ?_
  refine (attempts_moveItems (movable_major m.session now)).bind ?_
  have hbounds (scopes : List ContextScope) : Attempts (scopes.forM (enforceTier P cfg) >>= fun _ =>
      pure (m.session.promotedCount cfg now)) (m.put (m.session.autoPromoted P cfg now))
      (Moment.sweepPoints P cfg scopes (m.put (m.session.autoPromoted P cfg now)) ++ [])
      (.ok (m.session.promotedCount cfg now)) ((m.put (m.session.autoPromoted P cfg now)).sweep P cfg scopes) :=
    attempts_sweep.bind .ret
  have hstart := hbounds (m.session.promotedInto cfg now)
  rw [← List.append_nil (Moment.sweepPoints ..)]
  refine attempts_modify.bind ?_
  unfold Session.promotedInto at hstart ⊢
  split_ifs at hstart ⊢ <;> exact hstart

/-- The points of a query. -/
def Moment.queryPoints (P : Platform) (cfg : Settings) (m : Moment) (q : ContextQuery) (pattern : QuadPattern) :
    List Session :=
  match cfg.promotion.cadence with
  | .afterEachQuery => (m.answered P cfg q pattern).promotePoints P cfg m.reading
  | .never => []

/-- The moment at which a query returns. -/
def Moment.queried (P : Platform) (cfg : Settings) (m : Moment) (q : ContextQuery) (pattern : QuadPattern) : Moment :=
  let m' := m.answered P cfg q pattern
  match cfg.promotion.cadence with
  | .afterEachQuery => (m'.put (m'.session.autoPromoted P cfg m.reading)).sweep P cfg (m'.session.promotedInto cfg m.reading)
  | .never => m'

theorem attempts_query (P : Platform) (cfg : Settings) {q : ContextQuery} {pattern : QuadPattern}
    (hpattern : queryPattern q = .ok pattern) :
    ∃ r, Attempts (query P cfg q) m
      (List.replicate q.scopes.scopes.length m.session ++ m.queryPoints P cfg q pattern) (.ok r)
      (m.queried P cfg q pattern) := by
  unfold query Moment.queryPoints Moment.queried
  cases hcadence : cfg.promotion.cadence with
  | afterEachQuery =>
      rw [← List.append_nil (Moment.promotePoints ..)]
      exact ⟨_, (attempts_answer hpattern).bind (attempts_autoPromote.bind .ret)⟩
  | never => exact ⟨_, (attempts_answer hpattern).bind (Attempts.bind .ret .ret)⟩

/-! ## Events -/

section
variable {w : World} {ev : Event} {r : Except Halt Reply}

theorem Attempts.perform_fails (h : Attempts (ev.op.exec P cfg) (w.prepare ev).moment points r m')
    (hs : stopped ev.fates points = some σ) :
    (w.perform P cfg ev).1 = .error (.err .storage) ∧ (w.step P cfg ev).session = σ := by
  obtain ⟨w', hw', hσ⟩ := h.fails hs
  have hperform : w.perform P cfg ev = (.error (.err .storage), w') := hw'
  exact ⟨congrArg Prod.fst hperform, (congrArg (·.2.session) hperform).trans hσ⟩

theorem Attempts.perform_ends (h : Attempts (ev.op.exec P cfg) (w.prepare ev).moment points r m')
    (hs : stopped ev.fates points = none) :
    (w.perform P cfg ev).1 = r ∧ (w.step P cfg ev).session = m'.session := by
  have hperform : w.perform P cfg ev = (r, m'.world (ev.fates.drop points.length)) := h.ends hs
  exact ⟨congrArg Prod.fst hperform, congrArg (·.2.session) hperform⟩

end

end Semanticore.Context
