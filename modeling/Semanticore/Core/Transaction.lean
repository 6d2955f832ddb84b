import Semanticore.Core.Storage
import Mathlib.Data.Finset.Basic

/-!
# Storage transactions

`semanticore-core/src/storage.rs`: the calls of `StorageTransaction` and what a plain set of quads answers to them.
Backends are compared with that set.
-/

namespace Semanticore.Core

/-- `StorageError`. A boxed backend error is kept as its text. -/
inductive StorageError
  | serialization (message : String)
  | transactionConflict
  | backend (message : String)
deriving DecidableEq, Repr

/-- The calls that do not end a transaction. -/
inductive Call
  | insert (q : Quad)
  | remove (q : Quad)
  | contains (q : Quad)
  | quadsForPattern (s : Option NamedOrBlankNode) (p : Option NamedNode) (o : Option Term) (g : Option NamedOrDefault)
deriving DecidableEq, Repr

/-- The terms of the call come from their constructors. -/
def Call.Built : Call → Prop
  | .insert q => q.Built
  | .remove q => q.Built
  | .contains q => q.Built
  | .quadsForPattern _ _ o _ => ∀ l, o = some (.literal l) → l.Built

/-- What a call returns. The quads of an iterator are given as a set. -/
inductive Answer
  | flag (changed : Bool)
  | quads (found : Finset Quad)
  | error (e : StorageError)
deriving DecidableEq

/-- A call on a plain set of quads. -/
def plainCall (S : Finset Quad) : Call → Answer × Finset Quad
  | .insert q => (.flag (q ∉ S), Insert.insert q S)
  | .remove q => (.flag (q ∈ S), S.erase q)
  | .contains q => (.flag (q ∈ S), S)
  | .quadsForPattern s p o g => (.quads (S.filter (matchesPattern · s p o g)), S)

/-- A call that is not `insert` or `remove`. -/
def Call.reads : Call → Bool
  | .insert _ => false
  | .remove _ => false
  | .contains _ => true
  | .quadsForPattern .. => true

end Semanticore.Core
