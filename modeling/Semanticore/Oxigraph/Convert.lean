import Semanticore.Core.Transaction
import Semanticore.Oxigraph.Model

/-!
# Conversion between the two term models

`semanticore-store-oxigraph/src/convert.rs`.
-/

namespace Semanticore.Oxigraph
open Semanticore

def xsd : String := "http://www.w3.org/2001/XMLSchema#"

/-! ## Errors -/

inductive Unrepresentable
  | iri (s : String)
  | blankNode (id : String)
  | languageTag (tag : String)
  | langStringWithoutTag
  | nonCanonicalLiteral (value datatype : String)
  | blankGraphName (id : String)
  | rdf12Term (term : String)
deriving DecidableEq, Repr

def Unrepresentable.display : Unrepresentable → String
  | .iri s => "invalid IRI <" ++ s ++ ">"
  | .blankNode id => "invalid blank node label _:" ++ id
  | .languageTag tag => "invalid language tag @" ++ tag
  | .langStringWithoutTag => "rdf:langString literal without a language tag"
  | .nonCanonicalLiteral value datatype =>
      "literal \"" ++ value ++ "\"^^<" ++ datatype ++ "> would be stored in canonical form; " ++
        "insert the canonical lexical form with the primitive datatype instead"
  | .blankGraphName id => "graph named by blank node _:" ++ id ++ " has no core equivalent"
  | .rdf12Term term => "RDF 1.2 term " ++ term ++ " has no core equivalent"

def Unrepresentable.storageError (u : Unrepresentable) : Core.StorageError := .serialization u.display

variable (B : Crates)

/-! ## Core to Oxigraph -/

def namedToOx (n : Core.NamedNode) : Except Unrepresentable Ox.NamedNode :=
  if B.validIri n.iri then .ok ⟨n.iri⟩ else .error (.iri n.iri)

def blankToOx (b : Core.BlankNode) : Except Unrepresentable Ox.BlankNode :=
  if B.validBlankNode b.id then .ok ⟨b.id⟩ else .error (.blankNode b.id)

def subjectToOx : Core.NamedOrBlankNode → Except Unrepresentable Ox.NamedOrBlankNode
  | .named n => do return .namedNode (← namedToOx B n)
  | .blank b => do return .blankNode (← blankToOx B b)

/-- `strip_prefix(XSD)`. -/
def stripXsd (datatype : String) : Option String :=
  if xsd.toList.isPrefixOf datatype.toList then some (String.ofList (datatype.toList.drop xsd.toList.length)) else none

/-- The Rust types of the primitive datatypes in `round_trips`. -/
def primitiveTypes : List (String × XsdType) :=
  [("boolean", .boolean), ("float", .float), ("double", .double), ("integer", .integer), ("decimal", .decimal),
   ("dateTime", .dateTime), ("time", .time), ("date", .date), ("gYearMonth", .gYearMonth), ("gYear", .gYear),
   ("gMonthDay", .gMonthDay), ("gDay", .gDay), ("gMonth", .gMonth), ("duration", .duration),
   ("yearMonthDuration", .yearMonthDuration), ("dayTimeDuration", .dayTimeDuration)]

/-- The Rust types of the derived datatypes in `round_trips`, which read back under a different datatype. -/
def derivedTypes : List (String × XsdType) :=
  [("byte", .integer), ("short", .integer), ("int", .integer), ("long", .integer), ("unsignedByte", .integer),
   ("unsignedShort", .integer), ("unsignedInt", .integer), ("unsignedLong", .integer), ("positiveInteger", .integer),
   ("negativeInteger", .integer), ("nonPositiveInteger", .integer), ("nonNegativeInteger", .integer),
   ("dateTimeStamp", .dateTime)]

/-- `canonical`. -/
def canonical (t : XsdType) (value : String) : Bool :=
  match B.parse t value with
  | some v => B.display t v = value
  | none => false

/-- `unparsable`. -/
def unparsable (t : XsdType) (value : String) : Bool := (B.parse t value).isNone

/-- `round_trips`. -/
def roundTrips (value datatype : String) : Bool :=
  match stripXsd datatype with
  | none => true
  | some name => match primitiveTypes.find? (·.1 = name) with
      | some p => canonical B p.2 value || unparsable B p.2 value
      | none => match derivedTypes.find? (·.1 = name) with
          | some p => unparsable B p.2 value
          | none => true

/-- `literal_to_ox`. The tag is checked but kept as it is written. -/
def literalToOx (l : Core.Literal) : Except Unrepresentable Ox.Literal :=
  match l.language with
  | some tag => if B.validLanguageTag tag then .ok (.languageTagged l.value tag) else .error (.languageTag tag)
  | none =>
      if l.datatype.iri = Core.rdfLangString then .error .langStringWithoutTag
      else if !roundTrips B l.value l.datatype.iri then .error (.nonCanonicalLiteral l.value l.datatype.iri)
      else do return .newTyped l.value (← namedToOx B l.datatype)

def termToOx : Core.Term → Except Unrepresentable Ox.Term
  | .named n => do return .namedNode (← namedToOx B n)
  | .blank b => do return .blankNode (← blankToOx B b)
  | .literal l => do return .literal (← literalToOx B l)

def graphToOx : Core.NamedOrDefault → Except Unrepresentable Ox.GraphName
  | .named n => do return .namedNode (← namedToOx B n)
  | .default => .ok .defaultGraph

def quadToOx (q : Core.Quad) : Except Unrepresentable Ox.Quad := do
  return { subject := ← subjectToOx B q.subject
           predicate := ← namedToOx B q.predicate
           object := ← termToOx B q.object
           graphName := ← graphToOx B q.graph }

/-! ## Oxigraph to core -/

def namedFromOx (n : Ox.NamedNode) : Core.NamedNode := ⟨n.iri⟩

def subjectFromOx : Ox.NamedOrBlankNode → Core.NamedOrBlankNode
  | .namedNode n => .named (namedFromOx n)
  | .blankNode b => .blank ⟨b.id⟩

/-- `literal_from_ox`. A tag with another datatype than `rdf:langString` is a directional language string. -/
def literalFromOx (l : Ox.Literal) : Except Core.StorageError Core.Literal :=
  match l.language with
  | some tag =>
      if l.datatype = Core.rdfLangString then .ok (.newLang l.value tag)
      else .error (Unrepresentable.rdf12Term l.printed).storageError
  | none =>
      if l.datatype = Core.xsdString then .ok (.newSimple l.value)
      else .ok (.newTyped l.value ⟨l.datatype⟩)

def termFromOx : Ox.Term → Except Core.StorageError Core.Term
  | .namedNode n => .ok (.named (namedFromOx n))
  | .blankNode b => .ok (.blank ⟨b.id⟩)
  | .literal l => do return .literal (← literalFromOx l)
  | .triple printed => .error (Unrepresentable.rdf12Term printed).storageError

def graphFromOx : Ox.GraphName → Except Core.StorageError Core.NamedOrDefault
  | .namedNode n => .ok (.named (namedFromOx n))
  | .defaultGraph => .ok .default
  | .blankNode b => .error (Unrepresentable.blankGraphName b.id).storageError

def quadFromOx (q : Ox.Quad) : Except Core.StorageError Core.Quad := do
  return { subject := subjectFromOx q.subject
           predicate := namedFromOx q.predicate
           object := ← termFromOx q.object
           graph := ← graphFromOx q.graphName }

end Semanticore.Oxigraph
