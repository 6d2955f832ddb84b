import Semanticore.Context.Session
import Semanticore.Lib.Program

/-!
# Operations and runs

One event is one call of a public method of the Session, with how its storage transactions end and how time passes
during it. A run is a list of events.
-/

namespace Semanticore.Context
open Semanticore.Core Semanticore.Lib

inductive Op
  | add (scope : ContextScope) (item : ContextItem)
  | addBatch (scope : ContextScope) (items : List ContextItem)
  | remove (scope : ContextScope) (id : ItemId)
  | query (q : ContextQuery)
  | promote (ids : List ItemId) (source target : ContextScope)
  | evict (scope : ContextScope) (criteria : EvictionCriteria)
  | reason (scope : ContextScope)
  | validateShapes (data shapes : ContextScope)
  | evaluateDatalog (scope : ContextScope)

inductive Reply
  | id (id : ItemId)
  | ids (ids : List ItemId)
  | removed (found : Bool)
  | result (result : ContextQueryResult)
  | promoted (count : Nat)
  | evicted (count : Nat)
  | none

variable (P : Platform) (cfg : Settings)

def Op.exec : Op → SessionM Reply
  | .add scope item => Reply.id <$> Context.add P cfg scope item
  | .addBatch scope items => Reply.ids <$> Context.addBatch P cfg scope items
  | .remove scope id => Reply.removed <$> Context.remove P scope id
  | .query q => Reply.result <$> Context.query P cfg q
  | .promote ids source target => Reply.promoted <$> Context.promote P cfg ids source target
  | .evict scope criteria => Reply.evicted <$> Context.evict P cfg scope criteria
  | .reason scope => (fun _ => Reply.none) <$> Context.reason scope
  | .validateShapes data shapes => (fun _ => Reply.none) <$> Context.validateShapes data shapes
  | .evaluateDatalog scope => (fun _ => Reply.none) <$> Context.evaluateDatalog scope

/-- The batch an operation asks to add, and where. -/
def Op.batch : Op → Option (ContextScope × List ContextItem)
  | .add scope item => some (scope, [item])
  | .addBatch scope items => some (scope, items)
  | _ => none

/-- The items an operation asks to add. -/
def Op.newItems (op : Op) : List ContextItem := (op.batch.map (·.2)).getD []

/-- The ids that a call of `add` or `add_batch` returns. -/
def Reply.addedIds : Reply → List ItemId
  | .id new => [new]
  | .ids new => new
  | _ => []

structure Event where
  op : Op
  fates : List Fate
  elapsed : List Duration

/-- No storage transaction of the event fails. -/
def Event.Clean (ev : Event) : Prop := ∀ f ∈ ev.fates, f = .commit

/-- Three empty stores and the index that `open` builds from them. -/
def World.start : World :=
  { session := { state := .empty, stores := .const .empty, log := [] }, fates := [], elapsed := [], now := 0 }

namespace World

/-- The world in which the operation of an event starts, with an empty log. -/
def prepare (w : World) (ev : Event) : World :=
  { w with session := { w.session with log := [] }, fates := ev.fates, elapsed := ev.elapsed }

/-- What an event returns and the world it leaves. -/
def perform (w : World) (ev : Event) : Except Halt Reply × World := (ev.op.exec P cfg).run.run (w.prepare ev)

/-- The world an event leaves. After a panic the Session recovers the lock and goes on. -/
def step (w : World) (ev : Event) : World := (w.perform P cfg ev).2

def run (w : World) (evs : List Event) : World := evs.foldl (World.step P cfg) w

@[simp] theorem run_nil (w : World) : w.run P cfg [] = w := rfl

@[simp] theorem run_cons (w : World) (ev : Event) (evs : List Event) :
    w.run P cfg (ev :: evs) = (w.step P cfg ev).run P cfg evs := rfl

theorem run_append (w : World) (evs evs' : List Event) :
    w.run P cfg (evs ++ evs') = (w.run P cfg evs).run P cfg evs' := List.foldl_append

/-- The ids an event gave out, with the items passed for them: the batch was written if `next_id` moved. -/
def issuedBy (w : World) (ev : Event) : List (ItemId × ContextItem) :=
  if (w.step P cfg ev).session.state.nextId = w.session.state.nextId then []
  else (idRange w.session.state.nextId ev.op.newItems.length).zip ev.op.newItems

/-- The ids a run gave out, with the item passed to `add` for each. -/
def issued (w : World) : List Event → List (ItemId × ContextItem)
  | [] => []
  | ev :: evs => w.issuedBy P cfg ev ++ (w.step P cfg ev).issued evs

end World

end Semanticore.Context
