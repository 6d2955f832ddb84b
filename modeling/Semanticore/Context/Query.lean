import Semanticore.Context.Item

/-!
# The query DSL

`semanticore-context/src/query.rs`.
-/

namespace Semanticore.Context
open Semanticore.Core

structure QuadPattern where
  subject : Option NamedOrBlankNode
  predicate : Option NamedNode
  object : Option Term
deriving DecidableEq, Repr

inductive ScopeSelection
  | single (scope : ContextScope)
  | all
  | set (scopes : List ContextScope)
deriving DecidableEq, Repr

def ScopeSelection.listed : ScopeSelection → List ContextScope
  | .single s => [s]
  | .all => ContextScope.all
  | .set v => v

/-- `ScopeSelection::scopes`: the listed scopes, repeats dropped. -/
def ScopeSelection.scopes (sel : ScopeSelection) : List ContextScope :=
  sel.listed.foldl (fun out s => if s ∈ out then out else out ++ [s]) []

inductive ContextQueryKind
  | pattern (p : QuadPattern)
  | sparql (query : String)
  | similarity (queryEmbedding : List F32) (topK : Nat)
  | inference (pattern : QuadPattern)

structure ContextQuery where
  scopes : ScopeSelection
  kind : ContextQueryKind
  limit : Option Nat
  reasonerHint : Option ContextScope

structure RankedItem where
  id : ItemId
  item : ContextItem
  score : Float
  sourceScope : ContextScope

structure QueryStats where
  scopesConsulted : Nat
  quadsMatched : Nat
  autoPromoted : Nat
deriving DecidableEq, Repr

structure ContextQueryResult where
  items : List RankedItem
  queryStats : QueryStats

end Semanticore.Context
