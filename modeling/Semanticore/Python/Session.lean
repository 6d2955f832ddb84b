import Semanticore.Context.Snapshot
import Semanticore.Lib.Guarded

/-!
# The Session object of the Python binding

`semanticore-context-py/src/session.rs`. Threads share one object: an open native Session, or the counters of a closed
one, behind a reader-writer lock. The native Session keeps its index and its stores behind a mutex of its own. Read-only
calls share the lock, mutations and `close` take it exclusively.
-/

namespace Semanticore.Python
open Semanticore.Core Semanticore.Context Semanticore.Lib

/-! ## The object -/

/-- A native Session between two calls, and the clock. -/
structure Native where
  state : Context.State
  stores : Tiers Store
  now : Instant

/-- The world in which a call on the native Session runs. -/
def Native.world (n : Native) (fates : List Fate) (elapsed : List Duration) : World :=
  { session := { state := n.state, stores := n.stores, log := [] }, fates, elapsed, now := n.now }

/-- What a world keeps from one call to the next. -/
def Native.ofWorld (w : World) : Native := ⟨w.session.state, w.session.stores, w.now⟩

/-- `State`. -/
inductive State
  | opened (n : Native)
  | closed (stats : SessionStats)

/-- The exceptions that the methods raise: `CallError`, the panic of a native call, and what `validate` and
`evaluate_datalog` raise when the native call returns. -/
inductive Raised
  | sessionClosed
  | session (e : SessionError)
  | panic
  | notImplemented (message : String)
deriving DecidableEq

/-- The methods: those whose native call is an operation of a run, and the others. -/
inductive Call
  | method (ev : Event)
  | snapshot (scope : ContextScope) (fates : List Fate)
  | scopeOf (id : ItemId)
  | itemCount (scope : ContextScope)
  | closed
  | close

inductive Value
  | reply (r : Reply)
  | snapshot (s : ContextSnapshot)
  | scope (s : Option ContextScope)
  | count (n : Nat)
  | isClosed (b : Bool)
  | stats (s : SessionStats)

abbrev Answer := Except Raised Value

/-- What a method does with the value of its native call. -/
def finish : Op → Reply → Answer
  | .validateShapes _ _, _ => .error (.notImplemented "SHACL validation reports are not marshaled to Python yet")
  | .evaluateDatalog _, _ => .error (.notImplemented "Datalog programs and results are not marshaled to Python yet")
  | _, r => .ok (.reply r)

/-- What a method makes of the result of its native call. -/
def raise {α : Type} (f : α → Answer) : Except Halt α → Answer
  | .ok a => f a
  | .error (.err e) => .error (.session e)
  | .error .panic => .error .panic

/-- `read` and `write`: `f` on the open native Session. -/
def State.call {α : Type} (s : State) (fates : List Fate) (elapsed : List Duration) (x : SessionM α) (f : α → Answer) :
    Answer × State :=
  match s with
  | .closed _ => (.error .sessionClosed, s)
  | .opened n =>
      let (r, w) := x.run.run (n.world fates elapsed)
      (raise f r, .opened (.ofWorld w))

variable (P : Platform) (cfg : Settings)

def exec (s : State) : Call → Answer × State
  | .method ev => s.call ev.fates ev.elapsed (ev.op.exec P cfg) (finish ev.op)
  | .snapshot scope fates => s.call fates [] (Context.snapshot scope) fun snap => .ok (.snapshot snap)
  | .scopeOf id => s.call [] [] getState fun st => .ok (.scope (st.scopeOf id))
  | .itemCount scope => s.call [] [] getState fun st => .ok (.count (st.itemCount scope))
  | .closed => match s with
      | .opened _ => (.ok (.isClosed false), s)
      | .closed _ => (.ok (.isClosed true), s)
  | .close => match s with
      | .opened n => (.ok (.stats n.state.stats), .closed n.state.stats)
      | .closed stats => (.ok (.stats stats), s)

/-! ## The locks -/

/-- Which locks a method takes. Queries of a kind that is refused, `validate` and `evaluate_datalog` return before they
lock the native Session. Read-only calls on a closed Session find no mutex to lock; here they lock it all the same. -/
def Call.mode : Call → Guarded.Mode
  | .method ev => match ev.op with
      | .query q => match queryPattern q with
          | .ok _ => .shared
          | .error _ => .peek
      | .validateShapes _ _ => .peek
      | .evaluateDatalog _ => .peek
      | _ => .exclusive
  | .snapshot _ _ => .shared
  | .scopeOf _ => .shared
  | .itemCount _ => .shared
  | .closed => .peek
  | .close => .exclusive

/-- What a method puts into the object before it is done. `close` takes the state out and leaves zero counters in its
place; `contents` is what a native call makes of the Session on its way. -/
def interim (contents : Native → Call → List Native) (s : State) (c : Call) : List State :=
  match c with
  | .close => [.closed .zero]
  | _ => match s with
      | .opened n => (contents n c).map .opened
      | .closed _ => []

variable {P cfg} {s : State} {c : Call}

theorem call_opened {α : Type} (n : Native) (fates : List Fate) (elapsed : List Duration) (x : SessionM α)
    (f : α → Answer) : (State.opened n).call fates elapsed x f =
      (raise f (x.run.run (n.world fates elapsed)).1, .opened (.ofWorld (x.run.run (n.world fates elapsed)).2)) := rfl

/-- A program that exits at once. -/
theorem call_exit {α : Type} (n : Native) (fates : List Fate) (elapsed : List Duration) {x : SessionM α} {e : SessionError}
    (f : α → Answer) (h : ∀ w : World, x.run.run w = (.error (.err e), w)) :
    (State.opened n).call fates elapsed x f = (.error (.session e), .opened n) := by
  rw [call_opened, h]
  rfl

/-- What a call that peeks answers; it sees whether the Session is open. -/
theorem exec_peek (P : Platform) (cfg : Settings) (hc : c.mode = .peek) : ∃ a, (∀ n, exec P cfg (.opened n) c = (a, .opened n)) ∧
    ∃ a', ∀ stats, exec P cfg (.closed stats) c = (a', .closed stats) := by
  cases c with
  | method ev =>
      obtain ⟨op, fates, elapsed⟩ := ev
      cases op with
      | query q =>
          cases hq : queryPattern q with
          | ok p => simp [Call.mode, hq] at hc
          | error e =>
              have hexit : ∀ w : World, ((Op.query q).exec P cfg).run.run w = (.error (.err e), w) := by
                intro w
                simp only [Op.exec, query, Context.answer, hq]
                rfl
              exact ⟨_, fun n => call_exit n fates elapsed _ hexit, _, fun stats => rfl⟩
      | validateShapes data shapes => exact ⟨_, fun n => call_exit n fates elapsed _ fun _ => rfl, _, fun stats => rfl⟩
      | evaluateDatalog scope => exact ⟨_, fun n => call_exit n fates elapsed _ fun _ => rfl, _, fun stats => rfl⟩
      | add => cases hc
      | addBatch => cases hc
      | remove => cases hc
      | promote => cases hc
      | evict => cases hc
      | reason => cases hc
  | closed => exact ⟨_, fun n => rfl, _, fun stats => rfl⟩
  | snapshot => cases hc
  | scopeOf => cases hc
  | itemCount => cases hc
  | close => cases hc

end Semanticore.Python
