import Semanticore.Python.Json

/-!
# Items as Python objects

`semanticore-context-py/src/item.rs`: what the constructors accept and what the getters return.
-/

namespace Semanticore.Python
open Semanticore.Core Semanticore.Context Semanticore.Lib

/-! ## Constructors of items -/

def provenanceFromPy : PyObj → PyResult Provenance
  | .provenance p => .ok p
  | .str s => do return { source := ← s.toStr, derivedFrom := [] }
  | _ => .error (.typeError "provenance must be a Provenance or a str source")

/-- `try_iter`: what `iter()` of an object goes over. -/
def tryIter : PyObj → PyResult (List PyObj)
  | .str s => .ok (s.map fun c => .str [c])
  | .list items => .ok items
  | .tuple items => .ok items
  | .dict entries => .ok (entries.map (·.1))
  | .iterable _ items => .ok items
  | o => .error (.typeError ("'" ++ o.typeName ++ "' object is not iterable"))

def fromTriples (triples provenance : PyObj) (scopeHint : Option ContextScope) (embedding : Option (List F32)) :
    PyResult ContextItem := do
  let quads ← (← tryIter triples).mapM tripleFromPy
  return { payload := .triples quads, provenance := ← provenanceFromPy provenance, scopeHint, embedding }

def event (kind : String) (body provenance : PyObj) (scopeHint : Option ContextScope) (embedding : Option (List F32)) :
    PyResult ContextItem := do
  let body ← jsonFromPy body
  return { payload := .event kind body, provenance := ← provenanceFromPy provenance, scopeHint, embedding }

def chunk (content contentType : String) (provenance : PyObj) (scopeHint : Option ContextScope)
    (embedding : Option (List F32)) : PyResult ContextItem := do
  return { payload := .chunk content contentType, provenance := ← provenanceFromPy provenance, scopeHint, embedding }

/-! ## Getters of items -/

/-- `triples`. -/
def getTriples (item : ContextItem) : Option PyObj :=
  match item.payload with
  | .triples quads => some (.list (quads.map tripleToPy))
  | _ => none

def eventKind (item : ContextItem) : Option String :=
  match item.payload with
  | .event kind _ => some kind
  | _ => none

def eventBody (item : ContextItem) : Option PyObj :=
  match item.payload with
  | .event _ body => some (jsonToPy body)
  | _ => none

/-- `content`. -/
def getContent (item : ContextItem) : Option String :=
  match item.payload with
  | .chunk content _ => some content
  | _ => none

def contentType (item : ContextItem) : Option String :=
  match item.payload with
  | .chunk _ contentType => some contentType
  | _ => none

def withProvenance (item : ContextItem) (provenance : PyObj) : PyResult ContextItem := do
  return { item with provenance := ← provenanceFromPy provenance }

/-! ## Items that Python makes -/

/-- The constructors, and the methods that make one item of another. -/
inductive Made : ContextItem → Prop
  | triples {item : ContextItem} {ts p : PyObj} {hint : Option ContextScope} {emb : Option (List F32)}
      (h : fromTriples ts p hint emb = .ok item) : Made item
  | event {item : ContextItem} {kind : String} {body p : PyObj} {hint : Option ContextScope} {emb : Option (List F32)}
      (h : event kind body p hint emb = .ok item) : Made item
  | chunk {item : ContextItem} {content contentType : String} {p : PyObj} {hint : Option ContextScope}
      {emb : Option (List F32)} (h : chunk content contentType p hint emb = .ok item) : Made item
  | withProvenance {item item' : ContextItem} {p : PyObj} (hmade : Made item) (h : withProvenance item p = .ok item') :
      Made item'

/-- Triples of the default graph, or a body that JSON can carry. -/
def Showable (item : ContextItem) : Prop :=
  match item.payload with
  | .triples quads => ∀ q ∈ quads, q.graph = .default
  | .event _ body => IsValue body
  | .chunk _ _ => True

/-- An item made again from what the getters of another one return. -/
def rebuild (item : ContextItem) : PyResult ContextItem :=
  match getTriples item, eventKind item, eventBody item, getContent item, contentType item with
  | some ts, _, _, _, _ => fromTriples ts (.provenance item.provenance) item.scopeHint item.embedding
  | _, some kind, some body, _, _ => event kind body (.provenance item.provenance) item.scopeHint item.embedding
  | _, _, _, some content, some contentType =>
      chunk content contentType (.provenance item.provenance) item.scopeHint item.embedding
  | _, _, _, _, _ => .error (.typeError "no payload")

theorem triplesFromPy_eq_ok {objs : List PyObj} {quads : List Quad} : objs.mapM tripleFromPy = .ok quads ↔
    objs = quads.map tripleToPy ∧ ∀ q ∈ quads, q.graph = .default := by
  rw [mapM_eq_ok, ← List.forall₂_eq_eq_eq, List.forall₂_map_right_iff]
  simp only [tripleFromPy_eq_ok]
  induction objs generalizing quads with
  | nil => cases quads <;> simp
  | cons o objs ih =>
      cases quads with
      | nil => simp
      | cons q quads =>
          simp only [List.forall₂_cons, ih, List.forall_mem_cons]
          tauto

theorem fromTriples_eq_ok {ts p : PyObj} {hint : Option ContextScope} {emb : Option (List F32)} {item : ContextItem} :
    fromTriples ts p hint emb = .ok item ↔ ∃ quads prov, tryIter ts = .ok (quads.map tripleToPy) ∧
      (∀ q ∈ quads, q.graph = .default) ∧ provenanceFromPy p = .ok prov ∧ item = ⟨.triples quads, prov, hint, emb⟩ := by
  simp only [fromTriples, bind_eq_ok, triplesFromPy_eq_ok]
  constructor
  · rintro ⟨objs, hobjs, quads, ⟨rfl, hgraph⟩, prov, hprov, h⟩
    cases h
    exact ⟨quads, prov, hobjs, hgraph, hprov, rfl⟩
  · rintro ⟨quads, prov, hobjs, hgraph, hprov, rfl⟩
    exact ⟨_, hobjs, quads, ⟨rfl, hgraph⟩, prov, hprov, rfl⟩

theorem event_eq_ok {kind : String} {body p : PyObj} {hint : Option ContextScope} {emb : Option (List F32)}
    {item : ContextItem} : event kind body p hint emb = .ok item ↔ ∃ v prov, jsonFromPy body = .ok v ∧
      provenanceFromPy p = .ok prov ∧ item = ⟨.event kind v, prov, hint, emb⟩ := by
  simp only [event, bind_eq_ok]
  constructor
  · rintro ⟨v, hv, prov, hprov, h⟩
    cases h
    exact ⟨v, prov, hv, hprov, rfl⟩
  · rintro ⟨v, prov, hv, hprov, rfl⟩
    exact ⟨v, hv, prov, hprov, rfl⟩

theorem Made.showable {item : ContextItem} (h : Made item) : Showable item := by
  induction h with
  | triples h =>
      obtain ⟨quads, prov, -, hgraph, -, rfl⟩ := fromTriples_eq_ok.mp h
      exact hgraph
  | event h =>
      obtain ⟨v, prov, hv, -, rfl⟩ := event_eq_ok.mp h
      exact isValue_of_jsonFromPy hv
  | chunk h =>
      obtain ⟨prov, -, h⟩ := bind_eq_ok.mp h
      cases h
      trivial
  | withProvenance _ h ih =>
      obtain ⟨prov, -, h⟩ := bind_eq_ok.mp h
      cases h
      exact ih

theorem rebuild_of_showable {item : ContextItem} (h : Showable item) : rebuild item = .ok item := by
  obtain ⟨payload, prov, hint, emb⟩ := item
  cases payload with
  | triples quads => exact fromTriples_eq_ok.mpr ⟨quads, prov, rfl, h, rfl, rfl⟩
  | event kind body => exact event_eq_ok.mpr ⟨body, prov, jsonFromPy_jsonToPy h, rfl, rfl⟩
  | chunk content contentType => rfl

theorem made_of_rebuild {item : ContextItem} (h : rebuild item = .ok item) : Made item := by
  obtain ⟨payload, prov, hint, emb⟩ := item
  cases payload with
  | triples quads => exact .triples h
  | event kind body => exact .event h
  | chunk content contentType => exact .chunk h

/-- Python makes exactly the items with triples of the default graph and bodies that JSON can carry. Each of them is made
again from what its getters return. The getters return the triples that were passed, one by one, and a body like the one
that was passed. -/
theorem python_items_round_trip (item : ContextItem) :
    (Made item ↔ Showable item) ∧ (Made item ↔ rebuild item = .ok item) ∧
    (∀ ts p hint emb, fromTriples ts p hint emb = .ok item →
      ∃ objs, tryIter ts = .ok objs ∧ getTriples item = some (.list objs)) ∧
    ∀ kind body p hint emb, event kind body p hint emb = .ok item → DistinctKeys body →
      ∃ shown, eventBody item = some shown ∧ Mirrors body shown := by
  refine ⟨⟨Made.showable, fun h => made_of_rebuild (rebuild_of_showable h)⟩,
    ⟨fun h => rebuild_of_showable h.showable, made_of_rebuild⟩, fun ts p hint emb h => ?_, fun kind body p hint emb h hkeys => ?_⟩
  · obtain ⟨quads, prov, hobjs, -, -, rfl⟩ := fromTriples_eq_ok.mp h
    exact ⟨_, hobjs, rfl⟩
  · obtain ⟨v, prov, hv, -, rfl⟩ := event_eq_ok.mp h
    exact ⟨_, rfl, mirrors_of_jsonFromPy hv hkeys⟩

end Semanticore.Python
