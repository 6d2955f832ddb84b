import Mathlib.Tactic

/-!
# The RDF term model

`semanticore-core/src/model.rs`: subjects, predicates, objects and graph names of quads. Terms are kept verbatim
and compared as they are written.
-/

namespace Semanticore.Core

/-- `xsd::STRING`, the datatype of a plain literal. -/
def xsdString : String := "http://www.w3.org/2001/XMLSchema#string"

/-- `RDF_LANG_STRING`, the datatype of a language-tagged string. -/
def rdfLangString : String := "http://www.w3.org/1999/02/22-rdf-syntax-ns#langString"

structure NamedNode where
  iri : String
deriving DecidableEq, Repr

structure BlankNode where
  id : String
deriving DecidableEq, Repr

structure Literal where
  value : String
  datatype : NamedNode
  language : Option String
deriving DecidableEq, Repr

/-- `Literal::new_simple`. -/
def Literal.newSimple (value : String) : Literal :=
  { value, datatype := ⟨xsdString⟩, language := none }

/-- `Literal::new_typed`. -/
def Literal.newTyped (value : String) (datatype : NamedNode) : Literal := { value, datatype, language := none }

/-- `Literal::new_lang`. -/
def Literal.newLang (value language : String) : Literal :=
  { value, datatype := ⟨rdfLangString⟩, language := some language }

/-- The fields of a literal are private: every literal comes from one of the constructors. -/
inductive Literal.Built : Literal → Prop
  | simple (value : String) : Built (.newSimple value)
  | typed (value : String) (datatype : NamedNode) : Built (.newTyped value datatype)
  | lang (value language : String) : Built (.newLang value language)

inductive NamedOrBlankNode
  | named (n : NamedNode)
  | blank (b : BlankNode)
deriving DecidableEq, Repr

inductive Term
  | named (n : NamedNode)
  | blank (b : BlankNode)
  | literal (l : Literal)
deriving DecidableEq, Repr

/-- `From<NamedOrBlankNode> for Term`. -/
def NamedOrBlankNode.toTerm : NamedOrBlankNode → Term
  | .named n => .named n
  | .blank b => .blank b

inductive NamedOrDefault
  | named (n : NamedNode)
  | default
deriving DecidableEq, Repr

structure Quad where
  subject : NamedOrBlankNode
  predicate : NamedNode
  object : Term
  graph : NamedOrDefault
deriving DecidableEq, Repr

/-- `Quad::triple`: a quad of the default graph. -/
def Quad.triple (subject : NamedOrBlankNode) (predicate : NamedNode) (object : Term) : Quad :=
  { subject, predicate, object, graph := .default }

/-- A quad whose terms come from their constructors. -/
def Quad.Built (q : Quad) : Prop := ∀ l, q.object = .literal l → l.Built

/-! ## Display -/

def NamedNode.display (n : NamedNode) : String := "<" ++ n.iri ++ ">"

def BlankNode.display (b : BlankNode) : String := "_:" ++ b.id

def Literal.display (l : Literal) : String :=
  match l.language with
  | some lang => "\"" ++ l.value ++ "\"@" ++ lang
  | none => "\"" ++ l.value ++ "\"^^" ++ l.datatype.display

def NamedOrBlankNode.display : NamedOrBlankNode → String
  | .named n => n.display
  | .blank b => b.display

def Term.display : Term → String
  | .named n => n.display
  | .blank b => b.display
  | .literal l => l.display

end Semanticore.Core
