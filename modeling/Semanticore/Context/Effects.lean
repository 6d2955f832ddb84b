import Semanticore.Context.Lemmas.Index
import Semanticore.Context.Lemmas.Record

/-!
# What operations do to a Session

The effects of the Session's programs as functions on Sessions, and the actions an operation is made of. An
operation that is not interrupted leaves a trail of whole actions; one that a failing transaction interrupts may
leave, after such a trail, one item copied to the store it was on its way to.
-/

namespace Semanticore.Context
open Semanticore.Core

variable (P : Platform) (cfg : Settings)

/-! ## Effects -/

namespace Session

/-- The first transaction of a move. -/
def copied (σ : Session) (id : ItemId) (item : ContextItem) (target : ContextScope) : Session :=
  σ.commit target ((σ.stores.get target).insertAll (encode P id item))

def deleted (σ : Session) (id : ItemId) (scope : ContextScope) : Session :=
  σ.commit scope (deleteQuads P id (σ.stores.get scope))

def moved (σ : Session) (id : ItemId) (e : Entry) (target : ContextScope) (arrival : Arrival) : Session :=
  (((σ.copied P id e.item target).deleted P id e.scope).mapState fun st =>
    { st with items := st.items.insert id (e.arrive target arrival) }).note (.moved id e.scope target)

def dropped (σ : Session) (id : ItemId) (e : Entry) : Session :=
  ((σ.deleted P id e.scope).mapState fun st =>
    { st with items := st.items.erase id
              stats := { st.stats with itemsEvicted := st.stats.itemsEvicted + 1 } }).note (.dropped id)

def removed (σ : Session) (id : ItemId) (scope : ContextScope) : Session :=
  (σ.deleted P id scope).mapState fun st => { st with items := st.items.erase id }

/-- The ids the next batch gets, with its items. -/
def batch (σ : Session) (items : List ContextItem) : List (ItemId × ContextItem) :=
  (idRange σ.state.nextId items.length).zip items

def added (σ : Session) (scope : ContextScope) (items : List ContextItem) (now : Instant) : Session :=
  (σ.commit scope ((σ.stores.get scope).insertAll (encodeBatch P (σ.batch items)))).mapState
    (·.addBatch scope (σ.batch items) (σ.state.nextId + UInt64.ofNat items.length) now)

def touched (σ : Session) (id : ItemId) (e : Entry) (now : Instant) : Session :=
  σ.mapState fun st => { st with items := st.items.insert id (e.touch cfg now) }

def counted (σ : Session) (served promoted demoted : Nat) : Session :=
  σ.mapState fun st =>
    { st with stats := { st.stats with queriesServed := st.stats.queriesServed + served
                                       itemsPromoted := st.stats.itemsPromoted + promoted
                                       itemsDemoted := st.stats.itemsDemoted + demoted } }

def selected (σ : Session) (now : Instant) (scope : ContextScope) (count : Nat) : Session :=
  σ.note (.selected σ.state scope count (chosenVictims cfg σ.state now scope count))

/-! ## Effects that look their item up -/

def moveItem (σ : Session) (target : ContextScope) (arrival : Arrival) (id : ItemId) : Session :=
  match σ.state.items[id]? with
  | none => σ
  | some e => σ.moved P id e target arrival

def dropItem (σ : Session) (id : ItemId) : Session :=
  match σ.state.items[id]? with
  | none => σ
  | some e => σ.dropped P id e

def evictVictim (scope : ContextScope) (σ : Session) (id : ItemId) : Session :=
  match σ.state.items[id]? with
  | none => σ
  | some e => match evictionTarget cfg scope e.arrival with
      | some colder => (σ.moved P id e colder .demoted).counted 0 0 1
      | none => σ.dropped P id e

def moveItems (σ : Session) (ids : List ItemId) (target : ContextScope) (arrival : Arrival) : Session :=
  ids.foldl (fun σ id => σ.moveItem P target arrival id) σ

def dropItems (σ : Session) (ids : List ItemId) : Session := ids.foldl (Session.dropItem P) σ

def evictVictims (σ : Session) (scope : ContextScope) (ids : List ItemId) : Session :=
  ids.foldl (Session.evictVictim P cfg scope) σ

/-- By how much a tier exceeds its bound. -/
def excess (σ : Session) (scope : ContextScope) : Nat :=
  match cfg.bounds.get scope with
  | none => 0
  | some bound => σ.state.itemCount scope - bound

def enforceTier (σ : Session) (now : Instant) (scope : ContextScope) : Session :=
  if σ.excess cfg scope = 0 then σ
  else (σ.selected cfg now scope (σ.excess cfg scope)).evictVictims P cfg scope
    (chosenVictims cfg σ.state now scope (σ.excess cfg scope))

def access (now : Instant) (σ : Session) (id : ItemId) : Session :=
  match σ.state.items[id]? with
  | none => σ
  | some e => σ.touched cfg id e now

/-- The hits of a query counted as accesses, and the query as served. -/
def answered (σ : Session) (now : Instant) (ids : List ItemId) : Session :=
  (ids.foldl (Session.access cfg now) σ).counted 1 0 0

end Session

/-- The bounds of the listed scopes enforced in turn, each at some reading of the clock. -/
inductive Sweep : List ContextScope → Session → Session → Prop
  | nil {σ} : Sweep [] σ σ
  | cons {scope rest σ τ} (now : Instant) (h : Sweep rest (σ.enforceTier P cfg now scope) τ) :
      Sweep (scope :: rest) σ τ

/-! ## Actions -/

/-- What happens to items after the first stage of an operation: nothing is added and no access is counted. -/
inductive Act : Session → Session → Prop
  | moved {σ id e target} (arrival) (he : σ.state.items[id]? = some e) (hne : target ≠ e.scope) :
      Act σ (σ.moved P id e target arrival)
  | dropped {σ id e} (he : σ.state.items[id]? = some e) : Act σ (σ.dropped P id e)
  | removed {σ id e} (he : σ.state.items[id]? = some e) : Act σ (σ.removed P id e.scope)
  | counted {σ} (promoted demoted) : Act σ (σ.counted 0 promoted demoted)
  | selected {σ} (now scope count) : Act σ (σ.selected cfg now scope count)

/-- Finitely many whole actions. -/
def Trail : Session → Session → Prop := Relation.ReflTransGen (Act P cfg)

/-- A live item was written to the store of another scope and is still indexed where it was. -/
def HalfMove (σ τ : Session) : Prop :=
  ∃ id e target, σ.state.items[id]? = some e ∧ target ≠ e.scope ∧ τ = σ.copied P id e.item target

/-- Whole actions and at most one half move. -/
def Ends (σ τ : Session) : Prop := ∃ ρ, Trail P cfg σ ρ ∧ (τ = ρ ∨ HalfMove P ρ τ)

/-- `add_batch` records the batch: every item passed its check and the ids suffice. -/
structure Admissible (σ : Session) (items : List ContextItem) : Prop where
  valid : ∀ item ∈ items, validate σ.state item = .ok ()
  room : σ.state.nextId.toNat + items.length < 2 ^ 64

end Semanticore.Context
