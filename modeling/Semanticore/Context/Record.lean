import Semanticore.Context.Config
import Semanticore.Context.Error
import Semanticore.Core.Storage

/-!
# How items are laid out in a store

`semanticore-context/src/record.rs`. An item owns the named graph `urn:semanticore:context:item:<n>`, which holds
its triples, and one metadata quad in the graph `urn:semanticore:context:meta`, whose object is a JSON record of
everything else.
-/

namespace Semanticore.Context
open Semanticore.Core

def itemPrefix : String := "urn:semanticore:context:item:"

/-! ## Item graphs -/

/-- `item_graph`. -/
def itemGraph (id : ItemId) : NamedNode := ⟨itemPrefix ++ toString id.n.toNat⟩

/-- `str::strip_prefix`. -/
def stripPrefix (s pre : String) : Option String :=
  if pre.toList.isPrefixOf s.toList then some (String.ofList (s.toList.drop pre.toList.length)) else none

def stripPlus : List Char → List Char
  | '+' :: rest => rest
  | cs => cs

/-- `str::parse::<u64>`: an optional `+`, then decimal digits; no digits, any other character or a value of 2^64
and more is an error. -/
def parseU64 (s : String) : Option UInt64 :=
  let digits := stripPlus s.toList
  if digits.isEmpty || !digits.all Char.isDigit then none
  else if Nat.ofDigitChars 10 digits 0 < 2 ^ 64 then some (UInt64.ofNat (Nat.ofDigitChars 10 digits 0))
  else none

/-- `parse_item_graph`. Non-canonical spellings ("+1", "01") are rejected, so that one id has one IRI. -/
def parseItemGraph (graph : NamedNode) : Option ItemId := do
  let n ← stripPrefix graph.iri itemPrefix
  let id ← parseU64 n
  if toString id.toNat = n then some ⟨id⟩ else none

def metaGraph : NamedOrDefault := .named ⟨"urn:semanticore:context:meta"⟩

def recordPredicate : NamedNode := ⟨"urn:semanticore:context:record"⟩

/-! ## Records -/

inductive RecordPayload
  | triples
  | event (kind : String) (body : Json)
  | chunk (content : String) (contentType : String)

structure Record where
  payload : RecordPayload
  source : String
  derivedFrom : List UInt64
  scopeHint : Option String
  embedding : Option (List F32)

/-- The JSON object of a payload: `#[serde(tag = "type", rename_all = "snake_case")]`. -/
def RecordPayload.document : RecordPayload → Json
  | .triples => .object [("type", .string "triples")]
  | .event kind body => .object [("type", .string "event"), ("kind", .string kind), ("body", body)]
  | .chunk content contentType =>
      .object [("type", .string "chunk"), ("content", .string content), ("content_type", .string contentType)]

/-- `serde_json` writes a float that is not finite as `null`. -/
def F32.document (x : F32) : Json := if x.isFinite then .number (.float32 x.bits) else .null

/-- `None` is written as `null`. -/
def Json.ofOption {α : Type} (f : α → Json) : Option α → Json
  | none => .null
  | some a => f a

/-- The JSON object that the derived `Serialize` of `Record` writes. -/
def Record.document (r : Record) : Json :=
  .object
    [("payload", r.payload.document),
     ("source", .string r.source),
     ("derived_from", .array (r.derivedFrom.map fun n => .number (.posInt n))),
     ("scope_hint", .ofOption .string r.scopeHint),
     ("embedding", .ofOption (fun v => .array (v.map F32.document)) r.embedding)]

/-- The record of an item. -/
def Record.ofItem (item : ContextItem) : Record :=
  { payload := match item.payload with
      | .triples _ => .triples
      | .event kind body => .event kind body
      | .chunk content contentType => .chunk content contentType
    source := item.provenance.source
    derivedFrom := item.provenance.derivedFrom.map (·.n)
    scopeHint := item.scopeHint.map ContextScope.tag
    embedding := item.embedding }

/-! ## Code outside the repository -/

/-- What the crate takes from elsewhere: `serde_json` (with the `Deserialize` derived for `Record`) and the order
in which a backend streams the quads of a pattern. -/
structure Platform where
  jsonToString : Json → String
  recordFromStr : String → Except String Record
  scan : List Quad → List Quad
  scan_perm : ∀ quads, (scan quads).Perm quads

/-- `quads_for_pattern`, collected. -/
def Platform.quadsForPattern (P : Platform) (st : Store) (s : Option NamedOrBlankNode) (p : Option NamedNode)
    (o : Option Term) (g : Option NamedOrDefault) : List Quad :=
  P.scan (st.select s p o g)

@[simp] theorem Platform.mem_quadsForPattern {P : Platform} {st : Store} {s p o g} {q : Quad} :
    q ∈ P.quadsForPattern st s p o g ↔ q ∈ st ∧ matchesPattern q s p o g := by
  simp [Platform.quadsForPattern, (P.scan_perm _).mem_iff]

/-- The platform as far as one record goes, whose text is `text`; quads are streamed as the store lists them. -/
def Platform.ofRecord (record : Record) (text : String) : Platform where
  jsonToString _ := text
  recordFromStr s := if s = text then .ok record else .error "expected value at line 1 column 1"
  scan quads := quads
  scan_perm _ := .refl _

theorem Platform.ofRecord_reads (record : Record) (text : String) (json : Json) :
    (Platform.ofRecord record text).recordFromStr ((Platform.ofRecord record text).jsonToString json) = .ok record :=
  if_pos rfl

/-! ## Encoding and decoding -/

/-- A payload triple, in the item's own graph. -/
def inItemGraph (id : ItemId) (t : Quad) : Quad := { t with graph := .named (itemGraph id) }

def metadataQuad (P : Platform) (id : ItemId) (item : ContextItem) : Quad :=
  { subject := .named (itemGraph id)
    predicate := recordPredicate
    object := .literal (Literal.newSimple (P.jsonToString (Record.ofItem item).document))
    graph := metaGraph }

/-- `encode`: every quad that represents `item` in storage. -/
def encode (P : Platform) (id : ItemId) (item : ContextItem) : List Quad :=
  item.payload.quads.map (inItemGraph id) ++ [metadataQuad P id item]

/-- `decode`: rebuild an item from its metadata literal and the quads of its graph. -/
def decode (P : Platform) (id : ItemId) (json : String) (graphQuads : List Quad) :
    Except SessionError ContextItem := do
  let record ← match P.recordFromStr json with
    | .ok record => .ok record
    | .error e => .error (.corrupt ("metadata of " ++ id.display ++ ": " ++ e))
  let payload := match record.payload with
    | .triples => .triples (graphQuads.map fun q => Quad.triple q.subject q.predicate q.object)
    | .event kind body => .event kind body
    | .chunk content contentType => .chunk content contentType
  let scopeHint ← match record.scopeHint with
    | none => .ok none
    | some tag => match ContextScope.fromTag tag with
      | some scope => .ok (some scope)
      | none => .error (.corrupt ("metadata of " ++ id.display ++ ": unknown scope " ++ tag.quote))
  return { payload
           provenance := { source := record.source, derivedFrom := record.derivedFrom.map ItemId.mk }
           scopeHint
           embedding := record.embedding }

end Semanticore.Context
