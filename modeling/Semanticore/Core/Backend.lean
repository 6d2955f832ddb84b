import Semanticore.Core.Transaction
import Semanticore.Lib.Except

/-!
# Backends

The traits `Storage` and `StorageTransaction` as an interface, and the backends behind it that are a plain set of quads
as long as one transaction writes at a time.
-/

namespace Semanticore.Core

/-- A backend. A transaction is a value; its calls also see the store it borrows. An iterator is given by what it
yields. -/
structure Storage where
  Store : Type
  Tx : Type
  beginRead : Store → Except StorageError Tx
  beginWrite : Store → Except StorageError Tx
  insert : Store → Tx → Quad → Except StorageError Bool × Tx
  remove : Store → Tx → Quad → Except StorageError Bool × Tx
  contains : Store → Tx → Quad → Except StorageError Bool
  quadsForPattern : Store → Tx → Option NamedOrBlankNode → Option NamedNode → Option Term → Option NamedOrDefault →
    List (Except StorageError Quad)
  commit : Store → Tx → Except StorageError Unit × Store
  rollback : Store → Tx → Except StorageError Unit × Store
  quadCount : Store → Except StorageError Nat
  namedGraphs : Store → Except StorageError (List NamedNode)
  /-- `capabilities`: the isolation is `ReadCommitted`. -/
  readCommitted : Store → Bool

/-- The object of a pattern comes from the constructors. -/
def BuiltObject (o : Option Term) : Prop := ∀ l, o = some (.literal l) → l.Built

/-- The store is a plain set of the quads that are `Fit`, to one transaction that writes at a time and to any that
read. `holds` relates a store at rest to its set, `writes` and `reads` a transaction to the set it sees. Other quads are
refused, and a transaction that is dropped leaves the store as it is. -/
structure Storage.PlainSet (B : Storage) (Fit : Quad → Prop) where
  holds : B.Store → Finset Quad → Prop
  writes : B.Store → B.Tx → Finset Quad → Prop
  reads : B.Store → B.Tx → Finset Quad → Prop
  fits : ∀ {s S q}, holds s S → q ∈ S → Fit q
  beginRead : ∀ {s S}, holds s S → ∃ tx, B.beginRead s = .ok tx ∧ reads s tx S
  beginWrite : ∀ {s S}, holds s S → ∃ tx, B.beginWrite s = .ok tx ∧ writes s tx S
  insert : ∀ {s tx S q}, writes s tx S → Fit q →
    ∃ tx', B.insert s tx q = (.ok (q ∉ S), tx') ∧ writes s tx' (Insert.insert q S)
  refuse : ∀ {s tx S q}, writes s tx S → q.Built → ¬ Fit q → ∃ e, B.insert s tx q = (.error e, tx)
  remove : ∀ {s tx S q}, writes s tx S → Fit q → ∃ tx', B.remove s tx q = (.ok (q ∈ S), tx') ∧ writes s tx' (S.erase q)
  contains : ∀ {s tx S q}, writes s tx S ∨ reads s tx S → Fit q → B.contains s tx q = .ok (q ∈ S)
  quadsForPattern : ∀ {s tx S sub p o g}, writes s tx S ∨ reads s tx S → BuiltObject o →
    ∃ qs : List Quad, B.quadsForPattern s tx sub p o g = qs.map .ok ∧ qs.Nodup ∧
      ∀ q, q ∈ qs ↔ q ∈ S ∧ matchesPattern q sub p o g
  commit : ∀ {s tx S}, writes s tx S → ∃ s', B.commit s tx = (.ok (), s') ∧ holds s' S
  rollback : ∀ {s tx S}, writes s tx S → B.rollback s tx = (.ok (), s)
  readOnly : ∀ {s tx S} (q), reads s tx S →
    (∃ e, B.insert s tx q = (.error e, tx)) ∧ ∃ e, B.remove s tx q = (.error e, tx)
  commitReader : ∀ {s tx S}, reads s tx S → B.commit s tx = (.ok (), s)
  rollbackReader : ∀ {s tx S} (s'), reads s tx S → B.rollback s' tx = (.ok (), s')
  /-- A reader keeps its set, unless the backend says otherwise. -/
  snapshot : ∀ {s tx S} (s'), B.readCommitted s = false → reads s tx S → reads s' tx S
  quadCount : ∀ {s S}, holds s S → B.quadCount s = .ok S.card
  namedGraphs : ∀ {s S}, holds s S → ∃ gs : List NamedNode, B.namedGraphs s = .ok gs ∧ gs.Nodup ∧
    ∀ g, g ∈ gs ↔ ∃ q ∈ S, q.graph = .named g

/-- Collecting what an iterator yields gives the quads that match, each once. -/
theorem Storage.PlainSet.collect {B : Storage} {Fit : Quad → Prop} (K : B.PlainSet Fit) {s : B.Store} {tx : B.Tx}
    {S : Finset Quad} (sub : Option NamedOrBlankNode) (p : Option NamedNode) (o : Option Term) (g : Option NamedOrDefault)
    (h : K.writes s tx S ∨ K.reads s tx S) (ho : BuiltObject o) :
    ∃ qs : List Quad, (B.quadsForPattern s tx sub p o g).mapM id = .ok qs ∧ qs.Nodup ∧
      ∀ q, q ∈ qs ↔ q ∈ S ∧ matchesPattern q sub p o g := by
  have hfound : ∃ qs : List Quad, B.quadsForPattern s tx sub p o g = qs.map .ok ∧ qs.Nodup ∧
      ∀ q, q ∈ qs ↔ q ∈ S ∧ matchesPattern q sub p o g := K.quadsForPattern h ho
  obtain ⟨qs, hqs, hnodup, hmem⟩ := hfound
  exact ⟨qs, by rw [hqs, Lib.mapM_id_ok], hnodup, hmem⟩

end Semanticore.Core
