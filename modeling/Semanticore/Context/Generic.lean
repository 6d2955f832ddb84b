import Semanticore.Context.Run
import Semanticore.Core.Backend

/-!
# The Session over any backend

`Session<S: Storage>` with the calls it makes on its stores, one by one. A call on a store answers as the backend
does, or fails for a reason of the backend's own.
-/

namespace Semanticore.Context.Generic
open Semanticore.Core

/-! ## Worlds -/

/-- A Session over stores of the backend `B`, which of the coming calls on a store fail (past the list, none do), and
the clock. -/
structure World (B : Storage) where
  stores : Tiers B.Store
  state : State
  faults : List Bool
  elapsed : List Duration
  now : Instant

abbrev SessionM (B : Storage) := ExceptT Halt (StateM (World B))

variable {B : Storage}

def getState : SessionM B State := do return (← get).state

def modifyState (f : State → State) : SessionM B Unit := modify fun w => { w with state := f w.state }

def instantNow : SessionM B Instant := do
  let w ← get
  match w.elapsed with
  | [] => return w.now
  | d :: ds => do
      set { w with elapsed := ds, now := w.now + d }
      return w.now + d

def checkedAdd (a : UInt64) (k : Nat) : SessionM B UInt64 :=
  if a.toNat + k < 2 ^ 64 then return a + UInt64.ofNat k else throw .panic

def liftExcept {α : Type} : Except SessionError α → SessionM B α
  | .ok a => return a
  | .error e => throw (.err e)

/-! ## Calls on a store -/

/-- `map_err(storage)`. -/
def mapErr {α : Type} : Except StorageError α → Except SessionError α
  | .ok a => .ok a
  | .error _ => .error .storage

/-- A call, with what it returns and what it leaves. A call that fails has no effect. -/
def call {α β : Type} (before : β) (x : Except StorageError α × β) : SessionM B (Except SessionError α × β) := do
  let w ← get
  set { w with faults := w.faults.tail }
  if w.faults.headD false then return (.error .storage, before) else return (mapErr x.1, x.2)

def store (scope : ContextScope) : SessionM B B.Store := do return (← get).stores.get scope

def setStore (scope : ContextScope) (after : B.Store) : SessionM B Unit :=
  modify fun w => { w with stores := w.stores.set scope after }

/-- What the closure of a write transaction returns, and the transaction as it leaves it. -/
abbrev Closure (B : Storage) := B.Tx → SessionM B (Except SessionError Unit × B.Tx)

/-- `with_write`: commit on `Ok`, roll back on `Err`. -/
def withWrite (scope : ContextScope) (f : Closure B) : SessionM B Unit := do
  let tx ← liftExcept (← call () (B.beginWrite (← store scope), ())).1
  let (r, tx) ← f tx
  match r with
  | .ok () => do
      let (r, after) ← call (← store scope) (B.commit (← store scope) tx)
      setStore scope after
      liftExcept r
  | .error e => do
      let (_, after) ← call (← store scope) (B.rollback (← store scope) tx)
      setStore scope after
      throw (.err e)

/-- A loop over quads that makes one call for each. -/
def forEach (f : B.Store → B.Tx → Quad → Except StorageError Bool × B.Tx) (scope : ContextScope) :
    List Quad → Closure B
  | [], tx => return (.ok (), tx)
  | q :: quads, tx => do
      let (r, tx) ← call tx (f (← store scope) tx q)
      match r with
      | .ok _ => forEach f scope quads tx
      | .error e => return (.error e, tx)

def insertAll (scope : ContextScope) (quads : List Quad) : Closure B := forEach B.insert scope quads

/-- The loop of `delete`. -/
def removeAll (scope : ContextScope) (quads : List Quad) : Closure B := forEach B.remove scope quads

/-- `collect` of what `quads_for_pattern` iterates over. -/
def collect (scope : ContextScope) (tx : B.Tx) (s : Option NamedOrBlankNode) (p : Option NamedNode) (o : Option Term)
    (g : Option NamedOrDefault) : SessionM B (Except SessionError (List Quad)) := do
  return (← call () ((B.quadsForPattern (← store scope) tx s p o g).mapM id, ())).1

/-- The closure of `delete`. -/
def deleteQuads (scope : ContextScope) (id : ItemId) : Closure B := fun tx => do
  match ← collect scope tx none none none (some (.named (itemGraph id))) with
  | .error e => return (.error e, tx)
  | .ok quads =>
      match ← collect scope tx (some (.named (itemGraph id))) (some recordPredicate) none (some metaGraph) with
      | .error e => return (.error e, tx)
      | .ok record => removeAll scope (quads ++ record) tx

def delete (scope : ContextScope) (id : ItemId) : SessionM B Unit := withWrite scope (deleteQuads scope id)

variable (P : Platform) (cfg : Settings)

/-! ## Moving and dropping -/

def moveItem (id : ItemId) (target : ContextScope) (arrival : Arrival) : SessionM B Unit := do
  match (← getState).items[id]? with
  | none => throw .panic
  | some entry =>
      withWrite target (insertAll target (encode P id entry.item))
      delete entry.scope id
      modifyState fun st => { st with items := st.items.insert id (entry.arrive target arrival) }

def dropItem (id : ItemId) : SessionM B Unit := do
  match (← getState).items[id]? with
  | none => throw .panic
  | some entry =>
      delete entry.scope id
      modifyState fun st =>
        { st with items := st.items.erase id
                  stats := { st.stats with itemsEvicted := st.stats.itemsEvicted + 1 } }

/-! ## Eviction -/

def victims (scope : ContextScope) (count : Nat) : SessionM B (List ItemId) := do
  let now ← instantNow
  let st ← getState
  return ((evictionOrder cfg now (st.inScope scope)).take count).map (·.1)

def evictVictim (scope : ContextScope) (id : ItemId) : SessionM B Unit := do
  match (← getState).items[id]? with
  | none => throw .panic
  | some entry => match evictionTarget cfg scope entry.arrival with
      | some colder => do
          moveItem P id colder .demoted
          modifyState fun st =>
            { st with stats := { st.stats with itemsDemoted := st.stats.itemsDemoted + 1 } }
      | none => dropItem id

def evictVictims (scope : ContextScope) (victims : List ItemId) : SessionM B Unit :=
  victims.forM (evictVictim P cfg scope)

/-- The body of the loop of `enforce_bounds`. -/
def enforceTier (scope : ContextScope) : SessionM B Unit := do
  match cfg.bounds.get scope with
  | none => return
  | some bound => do
      let count := (← getState).itemCount scope
      if bound < count then
        let chosen ← victims cfg scope (count - bound)
        evictVictims P cfg scope chosen

def enforceBounds (scope : ContextScope) : SessionM B Unit := scope.andColder.forM (enforceTier P cfg)

/-! ## Items -/

def addBatch (scope : ContextScope) (items : List ContextItem) : SessionM B (List ItemId) := do
  let st ← getState
  items.forM fun item => liftExcept (validate st item)
  let nextId ← checkedAdd st.nextId items.length
  let ids := idRange st.nextId items.length
  withWrite scope (insertAll scope (encodeBatch P (ids.zip items)))
  let now ← instantNow
  modifyState (·.addBatch scope (ids.zip items) nextId now)
  enforceBounds P cfg scope
  return ids

def add (scope : ContextScope) (item : ContextItem) : SessionM B ItemId := do
  match ← addBatch P cfg scope [item] with
  | id :: _ => return id
  | [] => throw .panic

def remove (scope : ContextScope) (id : ItemId) : SessionM B Bool := do
  if (← getState).scopeOf id ≠ some scope then
    return false
  delete scope id
  modifyState fun st => { st with items := st.items.erase id }
  return true

def promote (ids : List ItemId) (source target : ContextScope) : SessionM B Nat := do
  if target < source then throw (.err (.durabilityViolation source target))
  let items ← liftExcept (checkInScope (← getState) ids source)
  if target = source then
    return 0
  items.forM fun id => moveItem P id target .promoted
  modifyState fun st =>
    { st with stats := { st.stats with itemsPromoted := st.stats.itemsPromoted + items.length } }
  enforceBounds P cfg target
  return items.length

def evict (scope : ContextScope) : EvictionCriteria → SessionM B Nat
  | .items ids => do
      let ids ← liftExcept (checkInScope (← getState) ids scope)
      ids.forM dropItem
      return ids.length
  | .demote items target => do
      if scope ≤ target then throw (.err (.durabilityViolation scope target))
      let items ← liftExcept (checkInScope (← getState) items scope)
      items.forM fun id => moveItem P id target .demoted
      modifyState fun st =>
        { st with stats := { st.stats with itemsDemoted := st.stats.itemsDemoted + items.length } }
      enforceBounds P cfg target
      return items.length
  | .policy count => do
      let chosen ← victims cfg scope count
      evictVictims P cfg scope chosen
      match scope.colder with
      | some colder => enforceBounds P cfg colder
      | none => pure ()
      return chosen.length

/-! ## Queries -/

def autoPromote (now : Instant) : SessionM B Nat := do
  let st ← getState
  let toEnduring := promotable cfg st now .enduring
  let toMajor := promotable cfg st now .major
  toEnduring.forM fun id => moveItem P id .enduring .promoted
  toMajor.forM fun id => moveItem P id .major .promoted
  let promoted := toEnduring.length + toMajor.length
  modifyState fun st =>
    { st with stats := { st.stats with itemsPromoted := st.stats.itemsPromoted + promoted } }
  if toEnduring ≠ [] then
    enforceBounds P cfg .enduring
  else if toMajor ≠ [] then
    enforceBounds P cfg .major
  return promoted

/-- One consulted scope. -/
def consult (pattern : QuadPattern) (scope : ContextScope) : SessionM B (Nat × List (ItemId × ContextScope)) := do
  let tx ← liftExcept (← call () (B.beginRead (← store scope), ())).1
  let quads ← liftExcept (← collect scope tx pattern.subject pattern.predicate pattern.object none)
  let (r, after) ← call (← store scope) (B.rollback (← store scope) tx)
  setStore scope after
  liftExcept r
  let found := matchedItems (← getState) scope quads
  return (found.1, found.2.toList.map fun id => (id, scope))

/-- A returned hit counts as an access. -/
def access (now : Instant) (hit : ItemId × ContextScope) : SessionM B RankedItem := do
  match (← getState).items[hit.1]? with
  | none => throw .panic
  | some e =>
      modifyState fun st => { st with items := st.items.insert hit.1 (e.touch cfg now) }
      return { id := hit.1, item := e.item, score := 1.0, sourceScope := hit.2 }

/-- `query`, up to the point where auto-promotion runs. -/
def answer (q : ContextQuery) : SessionM B (Instant × Nat × List RankedItem) := do
  let pattern ← liftExcept (queryPattern q)
  let consulted ← q.scopes.scopes.mapM (consult pattern)
  let hits := applyLimit q.limit (consulted.flatMap (·.2))
  let now ← instantNow
  let items ← hits.mapM (access cfg now)
  modifyState fun st =>
    { st with stats := { st.stats with queriesServed := st.stats.queriesServed + 1 } }
  return (now, (consulted.map (·.1)).sum, items)

def query (q : ContextQuery) : SessionM B ContextQueryResult := do
  let (now, quadsMatched, items) ← answer cfg q
  let autoPromoted ← match cfg.promotion.cadence with
    | .afterEachQuery => autoPromote P cfg now
    | .never => pure 0
  return { items
           queryStats := { scopesConsulted := q.scopes.scopes.length, quadsMatched, autoPromoted } }

/-! ## Operations and runs -/

def exec : Op → SessionM B Reply
  | .add scope item => Reply.id <$> add P cfg scope item
  | .addBatch scope items => Reply.ids <$> addBatch P cfg scope items
  | .remove scope id => Reply.removed <$> remove scope id
  | .query q => Reply.result <$> query P cfg q
  | .promote ids source target => Reply.promoted <$> promote P cfg ids source target
  | .evict scope criteria => Reply.evicted <$> evict P cfg scope criteria
  | .reason _ => throw (.err (nyi .owlElReasoner))
  | .validateShapes _ _ => throw (.err (.premiumOnly .shaclUnavailable))
  | .evaluateDatalog _ => throw (.err (.premiumOnly .datalogUnavailable))

/-- One call of a public method. -/
structure Event where
  op : Op
  faults : List Bool
  elapsed : List Duration

namespace World

variable (w : World B)

/-- What an event returns and the world it leaves. -/
def perform (ev : Event) : Except Halt Reply × World B :=
  (exec P cfg ev.op).run.run { w with faults := ev.faults, elapsed := ev.elapsed }

def step (ev : Event) : World B := (w.perform P cfg ev).2

/-- What the events of a run return, one after another, and the world they leave. -/
def run : World B → List Event → List (Except Halt Reply) × World B
  | w, [] => ([], w)
  | w, ev :: evs => ((w.perform P cfg ev).1 :: (run (w.step P cfg ev) evs).1, (run (w.step P cfg ev) evs).2)

end World

end Semanticore.Context.Generic
