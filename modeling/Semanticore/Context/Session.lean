import Semanticore.Context.Query
import Semanticore.Context.Record

/-!
# The Session

`semanticore-context/src/session.rs`. A Session is an in-memory index over three stores. Its operations are
programs over a world that also says how each storage transaction ends and what the clock shows.
-/

namespace Semanticore.Context
open Semanticore.Core

/-! ## State -/

/-- The counters are `u64` in the source and natural numbers here: an overflow takes 2^64 counted events. -/
structure SessionStats where
  itemsAdded : Nat
  queriesServed : Nat
  reasoningPasses : Nat
  itemsPromoted : Nat
  itemsDemoted : Nat
  itemsEvicted : Nat
deriving DecidableEq, Repr

def SessionStats.zero : SessionStats := ⟨0, 0, 0, 0, 0, 0⟩

inductive Arrival
  | added
  | promoted
  | demoted
deriving DecidableEq, Repr

/-- `accesses` is a `u64` in the source and a natural number here: an overflow takes 2^64 accesses of one item. -/
structure Entry where
  item : ContextItem
  scope : ContextScope
  arrival : Arrival
  accesses : Nat
  lastTouch : Instant
  recent : List Instant
  weight : Float
  weightAt : Instant

def Entry.new (item : ContextItem) (scope : ContextScope) (arrival : Arrival) (now : Instant) : Entry :=
  { item, scope, arrival, accesses := 0, lastTouch := now, recent := [], weight := 1.0, weightAt := now }

/-- `Duration::as_secs_f64`. -/
def asSecsF64 (d : Duration) : Float := Float.ofNat (d / 10 ^ 9) + Float.ofNat (d % 10 ^ 9) / 1e9

/-- `f64::MIN_POSITIVE`. -/
def minPositive : Float := 2.2250738585072014e-308

/-- `Entry::weight_at`. Subtraction of instants saturates. -/
def Entry.decayedWeight (e : Entry) (now : Instant) (halfLife : Duration) : Float :=
  let hl := if asSecsF64 halfLife < minPositive then minPositive else asSecsF64 halfLife
  let age := asSecsF64 (now - e.weightAt)
  e.weight * Float.pow 0.5 (age / hl)

/-- The integer by which `f64::total_cmp` orders a float. -/
def totalKey (x : Float) : Int :=
  let b : Int := x.toBits.toNat
  if b < 2 ^ 63 then b else -1 - (b - 2 ^ 63)

/-- The entry after `move_item`: only a demotion forgets the recent accesses. -/
def Entry.arrive (e : Entry) (target : ContextScope) (arrival : Arrival) : Entry :=
  { e with scope := target, arrival, recent := if arrival = .demoted then [] else e.recent }

/-- The entry after a query returned its item at `now`. -/
def Entry.touch (cfg : Settings) (e : Entry) (now : Instant) : Entry :=
  let e := { e with accesses := e.accesses + 1, lastTouch := now,
                    recent := (e.recent ++ [now]).dropWhile fun t => cfg.promotion.minorWindow < now - t }
  match cfg.evictionPolicy with
  | .recencyWeighted halfLife => { e with weight := e.decayedWeight now halfLife + 1.0, weightAt := now }
  | _ => e

abbrev Index := Std.TreeMap ItemId Entry

structure State where
  items : Index
  nextId : UInt64
  stats : SessionStats

def State.empty : State := ⟨∅, 0, .zero⟩

/-- The live items of a scope, in id order. -/
def State.inScope (st : State) (scope : ContextScope) : List (ItemId × Entry) :=
  st.items.toList.filter (·.2.scope = scope)

/-- `Session::item_count`. -/
def State.itemCount (st : State) (scope : ContextScope) : Nat := (st.inScope scope).length

/-- `Session::scope_of`. -/
def State.scopeOf (st : State) (id : ItemId) : Option ContextScope := st.items[id]?.map (·.scope)

/-! ## Worlds

The log is a history variable: the code never reads it. It keeps what an operation did in order: the storage
commits it issued, with the contents they left, the victims it selected, and the items it moved and dropped. -/

inductive Mark
  | commit (scope : ContextScope) (after : Store)
  | selected (state : State) (scope : ContextScope) (count : Nat) (victims : List ItemId)
  | moved (id : ItemId) (source target : ContextScope)
  | dropped (id : ItemId)

structure Session where
  state : State
  stores : Tiers Store
  log : List Mark

namespace Session

def mapState (σ : Session) (f : State → State) : Session := { σ with state := f σ.state }

def note (σ : Session) (m : Mark) : Session := { σ with log := σ.log ++ [m] }

/-- A committed write transaction on the store of `scope`. -/
def commit (σ : Session) (scope : ContextScope) (after : Store) : Session :=
  { σ with stores := σ.stores.set scope after, log := σ.log ++ [.commit scope after] }

end Session

/-- What ends an operation early: an error it returns, or a panic. -/
inductive Halt
  | err (e : SessionError)
  | panic
deriving DecidableEq, Repr

/-- How a storage transaction ends. A failed one leaves its store as it was. -/
inductive Fate
  | commit
  | fail
deriving DecidableEq, Repr

/-- A Session, how the coming transactions end (past the list, they commit), the time that passes before each
coming reading of the clock (past the list, none), and the clock. -/
structure World where
  session : Session
  fates : List Fate
  elapsed : List Duration
  now : Instant

abbrev SessionM := ExceptT Halt (StateM World)

def getState : SessionM State := do return (← get).session.state

def modifySession (f : Session → Session) : SessionM Unit := modify fun w => { w with session := f w.session }

def modifyState (f : State → State) : SessionM Unit := modifySession (·.mapState f)

/-- `Instant::now`: the clock never goes backwards. -/
def instantNow : SessionM Instant := do
  let w ← get
  match w.elapsed with
  | [] => return w.now
  | d :: ds => do
      set { w with elapsed := ds, now := w.now + d }
      return w.now + d

/-- The end of the next storage transaction. -/
def transaction : SessionM Unit := do
  let w ← get
  match w.fates with
  | [] => return
  | .commit :: fates => set { w with fates }
  | .fail :: fates => do
      set { w with fates }
      throw (.err .storage)

/-- `with_write`: apply `f` in a write transaction. An error of the backend inside the closure rolls back, which
is one more way to fail. -/
def withWrite (scope : ContextScope) (f : Store → Store) : SessionM Unit := do
  transaction
  modifySession fun σ => σ.commit scope (f (σ.stores.get scope))

/-- `u64` addition; overflow panics. -/
def checkedAdd (a : UInt64) (k : Nat) : SessionM UInt64 :=
  if a.toNat + k < 2 ^ 64 then return a + UInt64.ofNat k else throw .panic

def liftExcept {α : Type} : Except SessionError α → SessionM α
  | .ok a => return a
  | .error e => throw (.err e)

variable (P : Platform) (cfg : Settings)

/-! ## Stores -/

/-- The quads that `delete` removes: the item's graph and its metadata quad. -/
def deleteQuads (id : ItemId) (tx : Store) : Store :=
  tx.removeAll
    (P.quadsForPattern tx none none none (some (.named (itemGraph id))) ++
      P.quadsForPattern tx (some (.named (itemGraph id))) (some recordPredicate) none (some metaGraph))

/-- `delete`. -/
def delete (scope : ContextScope) (id : ItemId) : SessionM Unit := withWrite scope (deleteQuads P id)

/-- One metadata quad of `load`, with the quads of its item's graph. -/
def loadRecord (tx : Store) (q : Quad) : Except SessionError (ItemId × ContextItem) := do
  let id := match q.subject with
    | .named n => parseItemGraph n
    | .blank _ => none
  match id, q.object with
  | some id, .literal lit => do
      let item ← decode P id lit.value (P.quadsForPattern tx none none none (some (.named (itemGraph id))))
      return (id, item)
  | _, _ => .error (.corrupt ("unexpected metadata quad " ++ q.subject.display ++ " " ++ q.object.display))

/-- `load`: every item stored in a store. -/
def load (tx : Store) : Except SessionError (List (ItemId × ContextItem)) :=
  (P.quadsForPattern tx none (some recordPredicate) none (some metaGraph)).mapM (loadRecord P tx)

/-! ## Opening -/

/-- `entry(id).or_insert_with`, for every item loaded from the store of `scope`. -/
def mergeLoaded (now : Instant) (scope : ContextScope) (items : Index) (loaded : List (ItemId × ContextItem)) :
    Index :=
  loaded.foldl (fun items p => items.insertIfNew p.1 (Entry.new p.2 scope .added now)) items

def loadScope (now : Instant) (items : Index) (scope : ContextScope) : SessionM Index := do
  transaction
  let w ← get
  let loaded ← liftExcept (load P (w.session.stores.get scope))
  return mergeLoaded now scope items loaded

/-- `Session::open` on the stores of the world; `persistent` is what they advertise. Scopes are merged most
durable first, so a copy left in two stores resolves to the more durable one. -/
def openSession (persistent : Tiers Bool) : SessionM Unit := do
  if persistent.enduring = false then throw (.err (.capabilityShortfall .enduring .persistent))
  let now ← instantNow
  let items ← ContextScope.all.foldlM (loadScope P now) ∅
  let nextId ← match items.keys.getLast? with
    | none => pure 0
    | some id => checkedAdd id.n 1
  modifyState fun _ => { items, nextId, stats := .zero }

/-! ## Moving and dropping -/

/-- `move_item`: write to the target store, then delete from the current one. -/
def moveItem (id : ItemId) (target : ContextScope) (arrival : Arrival) : SessionM Unit := do
  match (← getState).items[id]? with
  | none => throw .panic
  | some entry =>
      withWrite target (·.insertAll (encode P id entry.item))
      delete P entry.scope id
      modifyState fun st => { st with items := st.items.insert id (entry.arrive target arrival) }
      modifySession (·.note (.moved id entry.scope target))

/-- `drop_item`. -/
def dropItem (id : ItemId) : SessionM Unit := do
  match (← getState).items[id]? with
  | none => throw .panic
  | some entry =>
      delete P entry.scope id
      modifyState fun st =>
        { st with items := st.items.erase id
                  stats := { st.stats with itemsEvicted := st.stats.itemsEvicted + 1 } }
      modifySession (·.note (.dropped id))

/-! ## Eviction -/

/-- Candidates in eviction order. They come in id order and the sort is stable: ties go to the older item. -/
def evictionOrder (now : Instant) (candidates : List (ItemId × Entry)) : List (ItemId × Entry) :=
  match cfg.evictionPolicy with
  | .lru => candidates.insertionSort fun a b => a.2.lastTouch ≤ b.2.lastTouch
  | .lfu => candidates.insertionSort fun a b => a.2.accesses ≤ b.2.accesses
  | .recencyWeighted halfLife => candidates.insertionSort fun a b =>
      totalKey (a.2.decayedWeight now halfLife) ≤ totalKey (b.2.decayedWeight now halfLife)

/-- `victims`: up to `count` items of `scope`, in eviction order. -/
def victims (scope : ContextScope) (count : Nat) : SessionM (List ItemId) := do
  let now ← instantNow
  let st ← getState
  let chosen := ((evictionOrder cfg now (st.inScope scope)).take count).map (·.1)
  modifySession (·.note (.selected st scope count chosen))
  return chosen

/-- Where the demotion target sends an item of `scope` that arrived there by `arrival`; `none` drops it. -/
def evictionTarget (scope : ContextScope) (arrival : Arrival) : Option ContextScope :=
  match cfg.demotionTarget with
  | .drop => none
  | .nextColder => scope.colder
  | .oneStepThenDrop => match arrival with
      | .promoted => scope.colder
      | .added => none
      | .demoted => none

def evictVictim (scope : ContextScope) (id : ItemId) : SessionM Unit := do
  match (← getState).items[id]? with
  | none => throw .panic
  | some entry => match evictionTarget cfg scope entry.arrival with
      | some colder => do
          moveItem P id colder .demoted
          modifyState fun st =>
            { st with stats := { st.stats with itemsDemoted := st.stats.itemsDemoted + 1 } }
      | none => dropItem P id

/-- `evict_victims`. -/
def evictVictims (scope : ContextScope) (victims : List ItemId) : SessionM Unit :=
  victims.forM (evictVictim P cfg scope)

/-- The body of the loop of `enforce_bounds`. -/
def enforceTier (scope : ContextScope) : SessionM Unit := do
  match cfg.bounds.get scope with
  | none => return
  | some bound => do
      let count := (← getState).itemCount scope
      if bound < count then
        let chosen ← victims cfg scope (count - bound)
        evictVictims P cfg scope chosen

/-- `enforce_bounds`: evict from `scope` down to its bound, then from each colder scope in turn. -/
def enforceBounds (scope : ContextScope) : SessionM Unit := scope.andColder.forM (enforceTier P cfg)

/-! ## Items -/

/-- `char::is_whitespace`: the Unicode property White_Space. -/
def isWhitespace (c : Char) : Bool :=
  (0x09 ≤ c.toNat && c.toNat ≤ 0x0D) || (0x2000 ≤ c.toNat && c.toNat ≤ 0x200A) ||
    [0x20, 0x85, 0xA0, 0x1680, 0x2028, 0x2029, 0x202F, 0x205F, 0x3000].contains c.toNat

/-- `trim().is_empty()`. -/
def trimIsEmpty (s : String) : Bool := s.toList.all isWhitespace

/-- `validate`. -/
def validate (st : State) (item : ContextItem) : Except SessionError Unit := do
  if trimIsEmpty item.provenance.source then .error .missingProvenance
  if item.payload.quads.any (·.graph ≠ .default) then
    .error (.invalidItem "triples must be in the default graph")
  if (item.embedding.getD []).any (!·.isFinite) then
    .error (.invalidItem "embedding values must be finite")
  match item.provenance.derivedFrom.find? (fun id => !st.items.contains id) with
  | some id => .error (.unknownItem id)
  | none => .ok ()

/-- The ids `first..first + count`. -/
def idRange (first : UInt64) (count : Nat) : List ItemId :=
  (List.range count).map fun i => ⟨first + UInt64.ofNat i⟩

def encodeBatch (batch : List (ItemId × ContextItem)) : List Quad := batch.flatMap fun p => encode P p.1 p.2

/-- The state after a batch was written. -/
def State.addBatch (st : State) (scope : ContextScope) (batch : List (ItemId × ContextItem)) (nextId : UInt64)
    (now : Instant) : State :=
  { items := batch.foldl (fun items p => items.insert p.1 (Entry.new p.2 scope .added now)) st.items
    nextId
    stats := { st.stats with itemsAdded := st.stats.itemsAdded + batch.length } }

/-- `add_batch`: one storage transaction, then the bounds. -/
def addBatch (scope : ContextScope) (items : List ContextItem) : SessionM (List ItemId) := do
  let st ← getState
  items.forM fun item => liftExcept (validate st item)
  let nextId ← checkedAdd st.nextId items.length
  let ids := idRange st.nextId items.length
  withWrite scope (·.insertAll (encodeBatch P (ids.zip items)))
  let now ← instantNow
  modifyState (·.addBatch scope (ids.zip items) nextId now)
  enforceBounds P cfg scope
  return ids

/-- `add`. -/
def add (scope : ContextScope) (item : ContextItem) : SessionM ItemId := do
  match ← addBatch P cfg scope [item] with
  | id :: _ => return id
  | [] => throw .panic

/-- `remove`. -/
def remove (scope : ContextScope) (id : ItemId) : SessionM Bool := do
  if (← getState).scopeOf id ≠ some scope then
    return false
  delete P scope id
  modifyState fun st => { st with items := st.items.erase id }
  return true

/-- `check_in_scope`: the ids without repeats, if every one is a live item of `scope`. -/
def checkInScope (st : State) (ids : List ItemId) (scope : ContextScope) : Except SessionError (List ItemId) := do
  let unique := ids.eraseDups
  unique.forM fun id => match st.items[id]? with
    | none => .error (.unknownItem id)
    | some e => if e.scope ≠ scope then .error (.scopeMismatch id scope e.scope) else .ok ()
  return unique

/-- `promote`. -/
def promote (ids : List ItemId) (source target : ContextScope) : SessionM Nat := do
  if target < source then throw (.err (.durabilityViolation source target))
  let items ← liftExcept (checkInScope (← getState) ids source)
  if target = source then
    return 0
  items.forM fun id => moveItem P id target .promoted
  modifyState fun st =>
    { st with stats := { st.stats with itemsPromoted := st.stats.itemsPromoted + items.length } }
  enforceBounds P cfg target
  return items.length

/-- `evict`. -/
def evict (scope : ContextScope) : EvictionCriteria → SessionM Nat
  | .items ids => do
      let ids ← liftExcept (checkInScope (← getState) ids scope)
      ids.forM (dropItem P)
      return ids.length
  | .demote items target => do
      if scope ≤ target then throw (.err (.durabilityViolation scope target))
      let items ← liftExcept (checkInScope (← getState) items scope)
      items.forM fun id => moveItem P id target .demoted
      modifyState fun st =>
        { st with stats := { st.stats with itemsDemoted := st.stats.itemsDemoted + items.length } }
      enforceBounds P cfg target
      return items.length
  | .policy count => do
      let chosen ← victims cfg scope count
      evictVictims P cfg scope chosen
      match scope.colder with
      | some colder => enforceBounds P cfg colder
      | none => pure ()
      return chosen.length

/-! ## Queries -/

/-- The number of other live items that cite each id. -/
def referenceCounts (items : Index) : Std.TreeMap ItemId Nat :=
  items.toList.foldl (fun refs p =>
    ((Std.TreeSet.ofList p.2.item.provenance.derivedFrom).toList.filter (· ≠ p.1)).foldl
      (fun refs c => refs.alter c fun n => some (n.getD 0 + 1)) refs) ∅

/-- The scope an auto-promotion rule moves an item to, judged on the state as it stands. -/
def promotionTarget (references : Std.TreeMap ItemId Nat) (now : Instant) (id : ItemId) (e : Entry) :
    Option ContextScope :=
  match e.scope with
  | .major =>
      if cfg.promotion.majorToEnduringReferences < references[id]?.getD 0 then some .enduring else none
  | .minor =>
      if cfg.promotion.minorToMajorAccesses <
          (e.recent.filter fun t => now - t ≤ cfg.promotion.minorWindow).length then some .major else none
  | .enduring => none

/-- The items the auto-promotion rules move to `target`, in id order. -/
def promotable (st : State) (now : Instant) (target : ContextScope) : List ItemId :=
  (st.items.toList.filter fun p =>
    promotionTarget cfg (referenceCounts st.items) now p.1 p.2 = some target).map (·.1)

/-- `auto_promote`. -/
def autoPromote (now : Instant) : SessionM Nat := do
  let st ← getState
  let toEnduring := promotable cfg st now .enduring
  let toMajor := promotable cfg st now .major
  toEnduring.forM fun id => moveItem P id .enduring .promoted
  toMajor.forM fun id => moveItem P id .major .promoted
  let promoted := toEnduring.length + toMajor.length
  modifyState fun st =>
    { st with stats := { st.stats with itemsPromoted := st.stats.itemsPromoted + promoted } }
  if toEnduring ≠ [] then
    enforceBounds P cfg .enduring
  else if toMajor ≠ [] then
    enforceBounds P cfg .major
  return promoted

/-- The loop of `query` over the quads of one scope: how many belong to live items of the scope, and which. -/
def matchedItems (st : State) (scope : ContextScope) (quads : List Quad) : Nat × Std.TreeSet ItemId :=
  quads.foldl (fun acc q => match q.graph with
    | .default => acc
    | .named g => match parseItemGraph g with
        | none => acc
        | some id => if st.scopeOf id = some scope then (acc.1 + 1, acc.2.insert id) else acc) (0, ∅)

/-- One consulted scope: the number of matching quads and the hits, in id order. -/
def consult (pattern : QuadPattern) (scope : ContextScope) : SessionM (Nat × List (ItemId × ContextScope)) := do
  transaction
  let σ := (← get).session
  let quads := P.quadsForPattern (σ.stores.get scope) pattern.subject pattern.predicate pattern.object none
  let found := matchedItems σ.state scope quads
  return (found.1, found.2.toList.map fun id => (id, scope))

/-- A returned hit counts as an access. -/
def access (now : Instant) (hit : ItemId × ContextScope) : SessionM RankedItem := do
  match (← getState).items[hit.1]? with
  | none => throw .panic
  | some e =>
      modifyState fun st => { st with items := st.items.insert hit.1 (e.touch cfg now) }
      return { id := hit.1, item := e.item, score := 1.0, sourceScope := hit.2 }

def applyLimit {α : Type} (limit : Option Nat) (hits : List α) : List α :=
  match limit with
  | some n => hits.take n
  | none => hits

def queryPattern (q : ContextQuery) : Except SessionError QuadPattern :=
  match q.kind with
  | .pattern p => if q.reasonerHint.isSome then .error (nyi .owlElReasoner) else .ok p
  | .sparql _ => .error (nyi .sparql)
  | .similarity _ _ => .error (nyi .annIndex)
  | .inference _ => .error (nyi .owlElReasoner)

/-- `query`, up to the point where auto-promotion runs. -/
def answer (q : ContextQuery) : SessionM (Instant × Nat × List RankedItem) := do
  let pattern ← liftExcept (queryPattern q)
  let consulted ← q.scopes.scopes.mapM (consult P pattern)
  let hits := applyLimit q.limit (consulted.flatMap (·.2))
  let now ← instantNow
  let items ← hits.mapM (access cfg now)
  modifyState fun st =>
    { st with stats := { st.stats with queriesServed := st.stats.queriesServed + 1 } }
  return (now, (consulted.map (·.1)).sum, items)

/-- `query`. -/
def query (q : ContextQuery) : SessionM ContextQueryResult := do
  let (now, quadsMatched, items) ← answer P cfg q
  let autoPromoted ← match cfg.promotion.cadence with
    | .afterEachQuery => autoPromote P cfg now
    | .never => pure 0
  return { items
           queryStats := { scopesConsulted := q.scopes.scopes.length, quadsMatched, autoPromoted } }

/-! ## Operations that are refused at v0.1 -/

/-- `reason`. -/
def reason (_scope : ContextScope) : SessionM Unit := throw (.err (nyi .owlElReasoner))

/-- `Session::validate`. -/
def validateShapes (_data _shapes : ContextScope) : SessionM Unit := throw (.err (.premiumOnly .shaclUnavailable))

/-- `evaluate_datalog`. -/
def evaluateDatalog (_scope : ContextScope) : SessionM Unit := throw (.err (.premiumOnly .datalogUnavailable))

end Semanticore.Context
