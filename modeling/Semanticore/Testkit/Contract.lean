import Semanticore.Core.Client

/-!
# The storage contract

`semanticore-storage-testkit/src/contract.rs`. A check is a program over a fresh store; a failed assertion and the
`unwrap` of an error end it with a panic. Every backend that is a plain set of quads passes every check.
-/

namespace Semanticore.Testkit
open Semanticore.Core Semanticore.Lib Client

/-- `unwrap` panics. -/
instance : Raises Unit := ⟨fun _ => ()⟩

abbrev Check (B : Storage) := Prog B.Store Unit

variable {B : Storage} {α : Type}

namespace Check

/-! ## Helpers -/

def assert (p : Bool) : Check B Unit := if p then return () else throw ()

/-- `tx.insert(q)` without `unwrap`. -/
def tryInsert (tx : B.Tx) (q : Quad) : Check B (Except StorageError Bool × B.Tx) := return B.insert (← get) tx q

def tryRemove (tx : B.Tx) (q : Quad) : Check B (Except StorageError Bool × B.Tx) := return B.remove (← get) tx q

/-- `if let Some(first) = base.first()`. -/
def onFirst (base : List Quad) (a : α) (f : Quad → Check B α) : Check B α :=
  match base.head? with
  | some first => f first
  | none => pure a

/-- A block that runs if `p` holds. -/
def onlyIf (p : Bool) (a : α) (x : Check B α) : Check B α := if p then x else pure a

def allQuads (tx : B.Tx) : Check B (Finset Quad) := return (← quadsForPattern tx none none none none).toFinset

def committed : Check B (Finset Quad) := do
  let tx ← beginRead
  let out ← allQuads tx
  rollback tx
  return out

def graphsOf (quads : Finset Quad) : Finset NamedNode :=
  quads.biUnion fun q => match q.graph with
    | .named g => {g}
    | .default => ∅

def iri (s : String) : NamedNode := ⟨"https://example.org/" ++ s⟩

/-! ## Checks -/

def roundTrip (quads : List Quad) : Check B Unit := do
  load quads
  let expected := quads.toFinset
  let tx ← beginRead
  quads.forM fun q => do assert (← contains tx q)
  assert ((← allQuads tx) = expected)
  rollback tx
  assert ((← quadCount) = expected.card)

def idempotentInsert (quads : List Quad) : Check B Unit := do
  let tx ← beginWrite
  let (tx, _) ← quads.foldlM (fun (acc : B.Tx × Finset Quad) q => do
    let (changed, tx) ← insert acc.1 q
    assert (changed = decide (q ∉ acc.2))
    return (tx, Insert.insert q acc.2)) (tx, ∅)
  commit tx
  let once ← committed
  let tx ← beginWrite
  let tx ← quads.foldlM (fun tx q => do
    let (changed, tx) ← insert tx q
    assert (!changed)
    return tx) tx
  commit tx
  assert ((← committed) = once)
  assert ((← quadCount) = once.card)

def deleteAfterInsert (base : List Quad) (extra : Quad) : Check B Unit := do
  load base
  let before ← committed
  let wasPresent := decide (extra ∈ before)
  let tx ← beginWrite
  let (changed, tx) ← insert tx extra
  assert (changed = !wasPresent)
  let (changed, tx) ← remove tx extra
  assert changed
  assert (!(← contains tx extra))
  commit tx
  assert ((← committed) = before.erase extra)
  load base
  assert ((← committed) = before)
  onlyIf (!wasPresent) () do
    load [extra]
    let tx ← beginWrite
    let (changed, tx) ← remove tx extra
    assert changed
    commit tx
    assert ((← committed) = before)
  let tx ← beginWrite
  let tx ← onlyIf (!wasPresent) tx do
    let (changed, tx) ← remove tx extra
    assert (!changed)
    return tx
  rollback tx
  assert ((← committed) = before)

def pattern (quads : List Quad) (s : Option NamedOrBlankNode) (p : Option NamedNode) (o : Option Term)
    (g : Option NamedOrDefault) : Check B Unit := do
  load quads
  let tx ← beginRead
  let got ← quadsForPattern tx s p o g
  assert (got.length = got.toFinset.card)
  assert (got.toFinset = (quads.filter (matchesPattern · s p o g)).toFinset)

def patternFromMember (quads : List Quad) (q : Quad) (mask : Bool × Bool × Bool × Bool) : Check B Unit := do
  load quads
  let tx ← beginRead
  let found ← quadsForPattern tx (if mask.1 then some q.subject else none) (if mask.2.1 then some q.predicate else none)
    (if mask.2.2.1 then some q.object else none) (if mask.2.2.2 then some q.graph else none)
  assert (found.any (· = q))

def rollbackAndIsolation (base writes : List Quad) : Check B Unit := do
  load base
  let before ← committed
  let tx ← beginWrite
  let (tx, expectedInside) ← writes.foldlM (fun (acc : B.Tx × Finset Quad) q => do
    let (_, tx) ← insert acc.1 q
    assert (← contains tx q)
    return (tx, Insert.insert q acc.2)) (tx, before)
  let (tx, expectedInside) ← onFirst base (tx, expectedInside) fun first => do
    let (_, tx) ← remove tx first
    assert (!(← contains tx first))
    return (tx, expectedInside.erase first)
  assert ((← allQuads tx) = expectedInside)
  assert ((← committed) = before)
  rollback tx
  assert ((← committed) = before)

def dropDiscardsWrites (base writes : List Quad) : Check B Unit := do
  load base
  let before ← committed
  let tx ← beginWrite
  let tx ← insertEach tx writes
  let _ ← removeEach tx base
  assert ((← committed) = before)
  assert ((← quadCount) = before.card)

/-- Whether a result is an error. -/
def isErr : Except StorageError Bool → Bool
  | .ok _ => false
  | .error _ => true

def readOnlyRejectsWrites (base : List Quad) (q : Quad) : Check B Unit := do
  load base
  let before ← committed
  let tx ← beginRead
  let (r, tx) ← tryInsert tx q
  assert (isErr r)
  let (r, tx) ← tryRemove tx q
  assert (isErr r)
  assert ((← contains tx q) = decide (q ∈ before))
  assert ((← allQuads tx) = before)
  commit tx
  assert ((← committed) = before)
  let tx ← beginRead
  let tx ← onFirst base tx fun first => do
    let (r, tx) ← tryRemove tx first
    assert (isErr r)
    return tx
  rollback tx
  assert ((← committed) = before)

/-- `named_graphs`. -/
def namedGraphsListed (quads : List Quad) : Check B Unit := do
  load quads
  let got ← namedGraphs
  assert (got.length = got.toFinset.card)
  assert (got.toFinset = graphsOf quads.toFinset)

/-- The quads that `remove`, repeated as often as needed, marks. -/
def marked (quads : List Quad) (remove : List Bool) : List Quad :=
  (quads.zipIdx.filter fun p => remove.getD (p.2 % remove.length) false).map (·.1)

def namedGraphsTrackRemovals (quads : List Quad) (remove : List Bool) : Check B Unit := do
  load quads
  unload (marked quads remove)
  let remaining ← committed
  let got ← namedGraphs
  assert (got.dedup.length = got.length)
  assert (got.toFinset = graphsOf remaining)
  assert ((← quadCount) = remaining.card)

def snapshotReads (base writes : List Quad) : Check B Unit := do
  load base
  let before ← committed
  let snapshot := !B.readCommitted (← get)
  let reader ← beginRead
  assert ((← allQuads reader) = before)
  let tx ← beginWrite
  let tx ← insertEach tx writes
  let tx ← onFirst base tx fun first => return (← remove tx first).2
  commit tx
  let after ← committed
  onlyIf snapshot () do
    assert ((← allQuads reader) = before)
    writes.forM fun q => do assert ((← contains reader q) = decide (q ∈ before))
  rollback reader
  let expected := before ∪ writes.toFinset
  assert (after = expected \ base.head?.toFinset)

def emptyStoreIsEmpty : Check B Unit := do
  assert ((← quadCount) = 0)
  assert (← namedGraphs).isEmpty
  assert ((← committed) = ∅)

/-- The triple of `graphs_are_separate`, in a graph. -/
def inGraph (g : NamedOrDefault) : Quad :=
  { subject := .named (iri "s"), predicate := iri "p", object := .named (iri "o"), graph := g }

/-- `graphs.sort()`. -/
def sorted (graphs : List NamedNode) : List NamedNode := graphs.mergeSort (·.iri ≤ ·.iri)

def graphsAreSeparate : Check B Unit := do
  let (g1, g2) := (NamedOrDefault.named (iri "g1"), NamedOrDefault.named (iri "g2"))
  let (qd, q1, q2) := (inGraph .default, inGraph g1, inGraph g2)
  load [qd, q1, q2]
  assert ((← quadCount) = 3)
  let tx ← beginRead
  let only := fun g => quadsForPattern tx none none none (some g)
  assert ((← only .default) = [qd])
  assert ((← only g1) = [q1])
  assert ((← only (.named (iri "nope"))) = [])
  let sameTriple ← quadsForPattern tx (some qd.subject) (some qd.predicate) (some qd.object) none
  assert (sameTriple.toFinset.card = 3)
  rollback tx
  assert (sorted (← namedGraphs) = [iri "g1", iri "g2"])
  unload [q1]
  assert ((← committed) = {qd, q2})
  assert ((← namedGraphs) = [iri "g2"])

/-- The quads of `writes_after_rollback`. -/
def quadOf (name : String) : Quad := .triple (.named (iri name)) (iri "p") (.named (iri "o"))

def writesAfterRollback : Check B Unit := do
  let tx ← beginWrite
  let (_, tx) ← insert tx (quadOf "a")
  rollback tx
  let tx ← beginWrite
  let _ ← insert tx (quadOf "b")
  let tx ← beginWrite
  let (changed, tx) ← insert tx (quadOf "c")
  assert changed
  commit tx
  assert ((← committed) = {quadOf "c"})

end Check

end Semanticore.Testkit
