import Semanticore.Core.Transaction
import Semanticore.Lib.Optimistic

/-!
# The reference store

`semanticore-storage-testkit/src/mem.rs`. A `MemStore` holds a set of quads and a version. Its transactions work on
private copies; the commit of a writer replaces the set, unless the version moved since the writer began.
-/

namespace Semanticore.Testkit
open Semanticore.Core Semanticore.Lib

/-! ## The store and its transactions -/

/-- The state behind the lock of a `MemStore`. -/
structure MemState where
  version : UInt64
  quads : Finset Quad
deriving DecidableEq

structure MemTx where
  baseVersion : UInt64
  working : Finset Quad
  writable : Bool
deriving DecidableEq

/-- `read_only_error`. -/
def readOnlyError : StorageError := .backend "write attempted in a read-only transaction"

/-- `MemStore::begin_read`. -/
def beginRead (st : MemState) : MemTx := { baseVersion := st.version, working := st.quads, writable := false }

/-- `MemStore::begin_write`. -/
def beginWrite (st : MemState) : MemTx := { beginRead st with writable := true }

namespace MemTx

def insert (tx : MemTx) (q : Quad) : Except StorageError Bool × MemTx :=
  if tx.writable = false then (.error readOnlyError, tx)
  else (.ok (q ∉ tx.working), { tx with working := Insert.insert q tx.working })

def remove (tx : MemTx) (q : Quad) : Except StorageError Bool × MemTx :=
  if tx.writable = false then (.error readOnlyError, tx)
  else (.ok (q ∈ tx.working), { tx with working := tx.working.erase q })

def contains (tx : MemTx) (q : Quad) : Bool := q ∈ tx.working

/-- `quads_for_pattern`: the quads that the iterator over the hash set yields. -/
def quadsForPattern (tx : MemTx) (s : Option NamedOrBlankNode) (p : Option NamedNode) (o : Option Term)
    (g : Option NamedOrDefault) : Finset Quad := tx.working.filter (matchesPattern · s p o g)

/-- `commit`: what it returns and the state it leaves. -/
def commit (tx : MemTx) (st : MemState) : Except StorageError Unit × MemState :=
  if tx.writable = false then (.ok (), st)
  else if st.version ≠ tx.baseVersion then (.error .transactionConflict, st)
  else (.ok (), { quads := tx.working, version := st.version + 1 })

def flagged (r : Except StorageError Bool × MemTx) : Answer × MemTx :=
  match r.1 with
  | .ok b => (.flag b, r.2)
  | .error e => (.error e, r.2)

def call (tx : MemTx) : Call → Answer × MemTx
  | .insert q => flagged (tx.insert q)
  | .remove q => flagged (tx.remove q)
  | .contains q => (.flag (tx.contains q), tx)
  | .quadsForPattern s p o g => (.quads (tx.quadsForPattern s p o g), tx)

end MemTx

/-! ## Interleavings -/

inductive TxStatus
  | unused
  | active (tx : MemTx)
  | ended

/-- A store and the transactions begun on it. -/
structure World where
  store : MemState
  txs : Nat → TxStatus

inductive Step
  | beginRead
  | beginWrite
  | call (c : Call)
  | commit
  | rollback
  | drop

inductive Reply
  | begun
  | answer (a : Answer)
  | ended (r : Except StorageError Unit)

structure Event where
  tx : Nat
  step : Step
  reply : Reply

namespace World

def start (st : MemState) : World := { store := st, txs := fun _ => .unused }

def set (w : World) (t : Nat) (s : TxStatus) : World := { w with txs := Function.update w.txs t s }

/-- One step of the transaction `t`; `none` if it cannot take it. -/
def step (w : World) (t : Nat) (s : Step) : Option (Reply × World) :=
  match w.txs t, s with
  | .unused, .beginRead => some (.begun, w.set t (.active (beginRead w.store)))
  | .unused, .beginWrite => some (.begun, w.set t (.active (beginWrite w.store)))
  | .active tx, .call c => some (.answer (tx.call c).1, w.set t (.active (tx.call c).2))
  | .active tx, .commit => some (.ended (tx.commit w.store).1, { w.set t .ended with store := (tx.commit w.store).2 })
  | .active _, .rollback => some (.ended (.ok ()), w.set t .ended)
  | .active _, .drop => some (.ended (.ok ()), w.set t .ended)
  | _, _ => none

/-- A step that cannot be taken is left out of the history. -/
def advance (s : World × List Event) (next : Nat × Step) : World × List Event :=
  match s.1.step next.1 next.2 with
  | none => s
  | some (r, w) => (w, s.2 ++ [⟨next.1, next.2, r⟩])

def run (w : World) (schedule : List (Nat × Step)) : World × List Event := schedule.foldl advance (w, [])

end World

end Semanticore.Testkit
