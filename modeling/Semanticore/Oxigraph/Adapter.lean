import Semanticore.Oxigraph.Convert

/-!
# The adapter's transactions

`semanticore-store-oxigraph/src/lib.rs`. A transaction of Oxigraph is the set of encoded quads that it reads, its own
writes among them; a commit puts that set in place of the store's.
-/

namespace Semanticore.Oxigraph
open Semanticore Semanticore.Core

/-! ## Oxigraph -/

/-- The pattern matches the stored quad, term by term. -/
def EncodedQuad.matches {B : Crates} (k : EncodedQuad B) (s : Option Ox.NamedOrBlankNode) (p : Option Ox.NamedNode)
    (o : Option Ox.Term) (g : Option Ox.GraphName) : Bool :=
  s.all (k.subject = ·) && p.all (k.predicate = ·) && o.all (k.object = ·.encode B) && g.all (k.graphName = ·)

/-- Oxigraph, with the order in which `quads_for_pattern` streams what matches. -/
structure Backend where
  crates : Crates
  scan : Finset (EncodedQuad crates) → Option Ox.NamedOrBlankNode → Option Ox.NamedNode → Option Ox.Term →
    Option Ox.GraphName → List (EncodedQuad crates)
  nodup_scan : ∀ K s p o g, (scan K s p o g).Nodup
  mem_scan : ∀ K s p o g k, k ∈ scan K s p o g ↔ k ∈ K ∧ k.matches s p o g

variable {H : Backend}

/-! ## Stores and transactions -/

/-- `AdapterError`. -/
inductive AdapterError
  | readOnlyTransaction
  | readOnlyStore
deriving DecidableEq, Repr

def AdapterError.display : AdapterError → String
  | .readOnlyTransaction => "transaction is read-only"
  | .readOnlyStore => "store was opened read-only"

def AdapterError.storageError (e : AdapterError) : StorageError := .backend e.display

/-- `Kind`. -/
inductive Kind
  | inMemory
  | onDisk
  | onDiskReadOnly
deriving DecidableEq, Repr

structure OxigraphStore (H : Backend) where
  inner : Finset (EncodedQuad H.crates)
  kind : Kind
deriving DecidableEq

/-- `TxInner`: what an `OxigraphTransaction` reads. -/
inductive OxigraphTransaction (H : Backend)
  | write (tx : Finset (EncodedQuad H.crates))
  | snapshot (tx : Finset (EncodedQuad H.crates))
  | latest
deriving DecidableEq

namespace OxigraphStore

variable (st : OxigraphStore H)

def beginRead : OxigraphTransaction H :=
  match st.kind with
  | .onDisk => .snapshot st.inner
  | .inMemory => .latest
  | .onDiskReadOnly => .latest

def beginWrite : Except StorageError (OxigraphTransaction H) :=
  if st.kind = .onDiskReadOnly then .error AdapterError.readOnlyStore.storageError else .ok (.write st.inner)

end OxigraphStore

/-! ## Calls

A transaction of the kind `latest` reads from the store that it borrows. -/

/-- What a call on a transaction returns. An iterator is given by what it yields. -/
inductive Reply
  | flag (r : Except StorageError Bool)
  | yields (quads : List (Except StorageError Quad))
deriving DecidableEq

namespace OxigraphTransaction

variable (st : OxigraphStore H) (tx : OxigraphTransaction H)

def writer : Except StorageError (Finset (EncodedQuad H.crates)) :=
  match tx with
  | .write tx => .ok tx
  | .snapshot _ => .error AdapterError.readOnlyTransaction.storageError
  | .latest => .error AdapterError.readOnlyTransaction.storageError

/-- The quads that reads of the transaction see. -/
def view : Finset (EncodedQuad H.crates) :=
  match tx with
  | .write tx => tx
  | .snapshot tx => tx
  | .latest => st.inner

def containsOx (quad : Ox.Quad) : Bool := quad.encode H.crates ∈ tx.view st

def insert (quad : Quad) : Except StorageError Bool × OxigraphTransaction H :=
  match tx.writer with
  | .error e => (.error e, tx)
  | .ok writes => match quadToOx H.crates quad with
      | .error u => (.error u.storageError, tx)
      | .ok quad =>
          if tx.containsOx st quad then (.ok false, tx)
          else (.ok true, .write (Insert.insert (quad.encode H.crates) writes))

def remove (quad : Quad) : Except StorageError Bool × OxigraphTransaction H :=
  match tx.writer with
  | .error e => (.error e, tx)
  | .ok writes => match quadToOx H.crates quad with
      | .error _ => (.ok false, tx)
      | .ok quad =>
          if !tx.containsOx st quad then (.ok false, tx)
          else (.ok true, .write (writes.erase (quad.encode H.crates)))

def contains (quad : Quad) : Except StorageError Bool :=
  match quadToOx H.crates quad with
  | .ok quad => .ok (tx.containsOx st quad)
  | .error _ => .ok false

/-- `quads_for_pattern`. A bound term that the store cannot hold matches nothing. -/
def quadsForPattern (s : Option NamedOrBlankNode) (p : Option NamedNode) (o : Option Term) (g : Option NamedOrDefault) :
    List (Except StorageError Quad) :=
  match s.mapM (subjectToOx H.crates), p.mapM (namedToOx H.crates), o.mapM (termToOx H.crates),
      g.mapM (graphToOx H.crates) with
  | .ok s, .ok p, .ok o, .ok g => (H.scan (tx.view st) s p o g).map fun k => quadFromOx k.decode
  | _, _, _, _ => []

/-- `commit`: what it returns and the store it leaves. -/
def commit : Except StorageError Unit × OxigraphStore H :=
  match tx with
  | .write tx => (.ok (), { st with inner := tx })
  | .snapshot _ => (.ok (), st)
  | .latest => (.ok (), st)

def call : Call → Reply × OxigraphTransaction H
  | .insert q => (.flag (tx.insert st q).1, (tx.insert st q).2)
  | .remove q => (.flag (tx.remove st q).1, (tx.remove st q).2)
  | .contains q => (.flag (tx.contains st q), tx)
  | .quadsForPattern s p o g => (.yields (tx.quadsForPattern st s p o g), tx)

/-- The calls of a transaction, one after another. -/
def calls : OxigraphTransaction H → List Call → List Reply × OxigraphTransaction H
  | tx, [] => ([], tx)
  | tx, c :: cs => ((tx.call st c).1 :: (calls (tx.call st c).2 cs).1, (calls (tx.call st c).2 cs).2)

end OxigraphTransaction

/-- How a transaction ends. -/
inductive Ending
  | commit
  | rollback
  | drop
deriving DecidableEq, Repr

/-- Only a commit makes a difference to the store. -/
def OxigraphTransaction.finish (st : OxigraphStore H) (tx : OxigraphTransaction H) :
    Ending → Except StorageError Unit × OxigraphStore H
  | .commit => tx.commit st
  | .rollback => (.ok (), st)
  | .drop => (.ok (), st)

/-- What a read of everything yields. -/
def OxigraphStore.committed (st : OxigraphStore H) : List (Except StorageError Quad) :=
  st.beginRead.quadsForPattern st none none none none

end Semanticore.Oxigraph
