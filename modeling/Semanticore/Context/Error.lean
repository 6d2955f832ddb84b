import Semanticore.Context.Item

/-!
# Error types

`semanticore-context/src/error.rs`.
-/

namespace Semanticore.Context

inductive TransactionIsolation
  | readCommitted
  | snapshotIsolation
  | serializable
deriving DecidableEq, Repr

inductive StorageCapability
  | persistent
  | concurrentWrites
  | bulkLoad
  | sparqlEndpoint
  | approximateQuadCount
  | isolation (level : TransactionIsolation)
deriving DecidableEq, Repr

inductive ContextError
  | shaclUnavailable
  | datalogUnavailable
deriving DecidableEq, Repr

inductive Unimplemented
  | owlElReasoner
  | annIndex
  | sparql
deriving DecidableEq, Repr

/-- `SessionError`. The boxed backend error of `Storage` is not modelled. -/
inductive SessionError
  | capabilityShortfall (scope : ContextScope) (required : StorageCapability)
  | missingProvenance
  | invalidItem (reason : String)
  | unknownItem (item : ItemId)
  | scopeMismatch (item : ItemId) (expected found : ContextScope)
  | durabilityViolation (source target : ContextScope)
  | premiumOnly (what : ContextError)
  | notYetImplemented (what : Unimplemented)
  | corrupt (reason : String)
  | storage
deriving DecidableEq, Repr

/-- `nyi`. -/
def nyi (what : Unimplemented) : SessionError := .notYetImplemented what

end Semanticore.Context
