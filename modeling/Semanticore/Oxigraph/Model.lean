import Semanticore.Core.Model

/-!
# Oxigraph's terms and how it stores them

`oxigraph::model`, and the encoding of its storage layer as `semanticore-store-oxigraph/src/convert.rs` describes it.
Terms are kept verbatim, but for literals of some XSD datatypes: one that its Rust type parses is stored as the value
and read back as that value prints.
-/

namespace Semanticore.Oxigraph

/-! ## Terms -/

namespace Ox

structure NamedNode where
  iri : String
deriving DecidableEq, Repr

structure BlankNode where
  id : String
deriving DecidableEq, Repr

/-- `xsd::STRING`. -/
def xsdString : String := "http://www.w3.org/2001/XMLSchema#string"

/-- `rdf::LANG_STRING`. -/
def rdfLangString : String := "http://www.w3.org/1999/02/22-rdf-syntax-ns#langString"

/-- `rdf::DIR_LANG_STRING`. -/
def rdfDirLangString : String := "http://www.w3.org/1999/02/22-rdf-syntax-ns#dirLangString"

/-- A directional string carries its printed form. -/
inductive Literal
  | string (value : String)
  | languageTagged (value language : String)
  | directional (value language printed : String)
  | typed (value : String) (datatype : NamedNode)
deriving DecidableEq, Repr

namespace Literal

/-- `new_typed_literal`: a typed literal of `xsd:string` is a plain string. -/
def newTyped (value : String) (datatype : NamedNode) : Literal :=
  if datatype.iri = xsdString then .string value else .typed value datatype

def value : Literal → String
  | .string v => v
  | .languageTagged v _ => v
  | .directional v _ _ => v
  | .typed v _ => v

def language : Literal → Option String
  | .languageTagged _ l => some l
  | .directional _ l _ => some l
  | .string _ => none
  | .typed _ _ => none

def datatype : Literal → String
  | .string _ => xsdString
  | .languageTagged _ _ => rdfLangString
  | .directional _ _ _ => rdfDirLangString
  | .typed _ d => d.iri

def printed : Literal → String
  | .directional _ _ p => p
  | .languageTagged v l => "\"" ++ v ++ "\"@" ++ l
  | .string v => "\"" ++ v ++ "\""
  | .typed v d => "\"" ++ v ++ "\"^^<" ++ d.iri ++ ">"

end Literal

inductive NamedOrBlankNode
  | namedNode (n : NamedNode)
  | blankNode (b : BlankNode)
deriving DecidableEq, Repr

/-- A triple term carries its printed form. -/
inductive Term
  | namedNode (n : NamedNode)
  | blankNode (b : BlankNode)
  | literal (l : Literal)
  | triple (printed : String)
deriving DecidableEq, Repr

inductive GraphName
  | namedNode (n : NamedNode)
  | blankNode (b : BlankNode)
  | defaultGraph
deriving DecidableEq, Repr

structure Quad where
  subject : NamedOrBlankNode
  predicate : NamedNode
  object : Term
  graphName : GraphName
deriving DecidableEq, Repr

end Ox

/-! ## XSD values -/

/-- The types of `oxsdatatypes` by which literals are stored. -/
inductive XsdType
  | boolean
  | float
  | double
  | integer
  | decimal
  | dateTime
  | time
  | date
  | gYearMonth
  | gYear
  | gMonthDay
  | gDay
  | gMonth
  | duration
  | yearMonthDuration
  | dayTimeDuration
deriving DecidableEq, Repr

/-- The datatype under which a value reads back. -/
def XsdType.datatype : XsdType → String
  | .boolean => "http://www.w3.org/2001/XMLSchema#boolean"
  | .float => "http://www.w3.org/2001/XMLSchema#float"
  | .double => "http://www.w3.org/2001/XMLSchema#double"
  | .integer => "http://www.w3.org/2001/XMLSchema#integer"
  | .decimal => "http://www.w3.org/2001/XMLSchema#decimal"
  | .dateTime => "http://www.w3.org/2001/XMLSchema#dateTime"
  | .time => "http://www.w3.org/2001/XMLSchema#time"
  | .date => "http://www.w3.org/2001/XMLSchema#date"
  | .gYearMonth => "http://www.w3.org/2001/XMLSchema#gYearMonth"
  | .gYear => "http://www.w3.org/2001/XMLSchema#gYear"
  | .gMonthDay => "http://www.w3.org/2001/XMLSchema#gMonthDay"
  | .gDay => "http://www.w3.org/2001/XMLSchema#gDay"
  | .gMonth => "http://www.w3.org/2001/XMLSchema#gMonth"
  | .duration => "http://www.w3.org/2001/XMLSchema#duration"
  | .yearMonthDuration => "http://www.w3.org/2001/XMLSchema#yearMonthDuration"
  | .dayTimeDuration => "http://www.w3.org/2001/XMLSchema#dayTimeDuration"

/-- The datatypes whose literals are stored as values, with the Rust type that parses them. -/
def storedTypes : List (String × XsdType) :=
  [("http://www.w3.org/2001/XMLSchema#boolean", .boolean),
   ("http://www.w3.org/2001/XMLSchema#float", .float),
   ("http://www.w3.org/2001/XMLSchema#double", .double),
   ("http://www.w3.org/2001/XMLSchema#integer", .integer),
   ("http://www.w3.org/2001/XMLSchema#byte", .integer),
   ("http://www.w3.org/2001/XMLSchema#short", .integer),
   ("http://www.w3.org/2001/XMLSchema#int", .integer),
   ("http://www.w3.org/2001/XMLSchema#long", .integer),
   ("http://www.w3.org/2001/XMLSchema#unsignedByte", .integer),
   ("http://www.w3.org/2001/XMLSchema#unsignedShort", .integer),
   ("http://www.w3.org/2001/XMLSchema#unsignedInt", .integer),
   ("http://www.w3.org/2001/XMLSchema#unsignedLong", .integer),
   ("http://www.w3.org/2001/XMLSchema#positiveInteger", .integer),
   ("http://www.w3.org/2001/XMLSchema#negativeInteger", .integer),
   ("http://www.w3.org/2001/XMLSchema#nonPositiveInteger", .integer),
   ("http://www.w3.org/2001/XMLSchema#nonNegativeInteger", .integer),
   ("http://www.w3.org/2001/XMLSchema#decimal", .decimal),
   ("http://www.w3.org/2001/XMLSchema#dateTime", .dateTime),
   ("http://www.w3.org/2001/XMLSchema#dateTimeStamp", .dateTime),
   ("http://www.w3.org/2001/XMLSchema#time", .time),
   ("http://www.w3.org/2001/XMLSchema#date", .date),
   ("http://www.w3.org/2001/XMLSchema#gYearMonth", .gYearMonth),
   ("http://www.w3.org/2001/XMLSchema#gYear", .gYear),
   ("http://www.w3.org/2001/XMLSchema#gMonthDay", .gMonthDay),
   ("http://www.w3.org/2001/XMLSchema#gDay", .gDay),
   ("http://www.w3.org/2001/XMLSchema#gMonth", .gMonth),
   ("http://www.w3.org/2001/XMLSchema#duration", .duration),
   ("http://www.w3.org/2001/XMLSchema#yearMonthDuration", .yearMonthDuration),
   ("http://www.w3.org/2001/XMLSchema#dayTimeDuration", .dayTimeDuration)]

def storedType (datatype : String) : Option XsdType := (storedTypes.find? (·.1 = datatype)).map (·.2)

/-- What the adapter takes from `oxigraph` and `oxsdatatypes`: the checks of their constructors, and `FromStr` and
`Display` of the XSD types. -/
structure Crates where
  validIri : String → Bool
  validBlankNode : String → Bool
  validLanguageTag : String → Bool
  Value : Type
  [decEqValue : DecidableEq Value]
  parse : XsdType → String → Option Value
  display : XsdType → Value → String

instance (B : Crates) : DecidableEq B.Value := B.decEqValue

/-! ## Storage -/

/-- A stored object. Equal values of one type are one stored term, however they were written. -/
inductive EncodedTerm (B : Crates)
  | namedNode (n : Ox.NamedNode)
  | blankNode (b : Ox.BlankNode)
  | verbatim (l : Ox.Literal)
  | value (t : XsdType) (v : B.Value)
  | triple (printed : String)
deriving DecidableEq

/-- A stored quad. Only literals can be stored otherwise than verbatim, and they are objects. -/
structure EncodedQuad (B : Crates) where
  subject : Ox.NamedOrBlankNode
  predicate : Ox.NamedNode
  object : EncodedTerm B
  graphName : Ox.GraphName
deriving DecidableEq

namespace Ox

variable (B : Crates)

def Literal.encode (l : Literal) : EncodedTerm B :=
  match storedType l.datatype with
  | none => .verbatim l
  | some t => match B.parse t l.value with
      | none => .verbatim l
      | some v => .value t v

def Term.encode : Term → EncodedTerm B
  | .namedNode n => .namedNode n
  | .blankNode b => .blankNode b
  | .literal l => l.encode B
  | .triple p => .triple p

def Quad.encode (q : Quad) : EncodedQuad B := ⟨q.subject, q.predicate, q.object.encode B, q.graphName⟩

end Ox

variable {B : Crates}

def EncodedTerm.decode : EncodedTerm B → Ox.Term
  | .namedNode n => .namedNode n
  | .blankNode b => .blankNode b
  | .verbatim l => .literal l
  | .value t v => .literal (.newTyped (B.display t v) ⟨t.datatype⟩)
  | .triple p => .triple p

def EncodedQuad.decode (q : EncodedQuad B) : Ox.Quad := ⟨q.subject, q.predicate, q.object.decode, q.graphName⟩

end Semanticore.Oxigraph
