import Semanticore.Context.Lemmas.Record

/-!
# Reading one item back
-/

namespace Semanticore.Context
open Semanticore.Core

/-- Equal payloads, triples compared as sets. -/
def SamePayload : ContextPayload → ContextPayload → Prop
  | .triples qs, .triples qs' => ∀ q, q ∈ qs ↔ q ∈ qs'
  | .event kind body, .event kind' body' => kind = kind' ∧ body = body'
  | .chunk content contentType, .chunk content' contentType' => content = content' ∧ contentType = contentType'
  | _, _ => False

/-- Equal items, triples compared as sets. -/
structure SameContent (a b : ContextItem) : Prop where
  payload : SamePayload a.payload b.payload
  provenance : a.provenance = b.provenance
  scopeHint : a.scopeHint = b.scopeHint
  embedding : a.embedding = b.embedding

variable {P : Platform} {id : ItemId} {item item' : ContextItem}

/-- A triple that was moved to an item graph and back. -/
theorem triple_inItemGraph {t : Quad} (h : t.graph = .default) :
    Quad.triple (inItemGraph id t).subject (inItemGraph id t).predicate (inItemGraph id t).object = t := by
  cases t
  simp only at h
  subst h
  rfl

/-- What comes back of an item: its triples in the order the store streams them, the rest as it was. -/
def decoded (item : ContextItem) (quads : List Quad) : ContextItem :=
  { item with payload := match item.payload with
      | .triples _ => .triples (quads.map fun q => Quad.triple q.subject q.predicate q.object)
      | .event kind body => .event kind body
      | .chunk content contentType => .chunk content contentType }

theorem decode_ofItem {json : String} (quads : List Quad)
    (hrecord : P.recordFromStr json = .ok (Record.ofItem item)) :
    decode P id json quads = .ok (decoded item quads) := by
  have hcited : (item.provenance.derivedFrom.map (·.n)).map ItemId.mk = item.provenance.derivedFrom := by
    simp [Function.comp_def]
  cases item with
  | mk payload provenance scopeHint embedding =>
      simp only [decode, hrecord, bind, Except.bind, Record.ofItem, hcited]
      cases scopeHint with
      | none => cases payload <;> rfl
      | some scope =>
          simp only [Option.map_some, ContextScope.fromTag_tag]
          cases payload <;> rfl

theorem sameContent_decoded {quads : List Quad} (htriples : ∀ t ∈ item.payload.quads, t.graph = .default)
    (hquads : ∀ q, q ∈ quads ↔ ∃ t ∈ item.payload.quads, inItemGraph id t = q) :
    SameContent (decoded item quads) item := by
  refine ⟨?_, rfl, rfl, rfl⟩
  cases item with
  | mk payload provenance scopeHint embedding =>
      cases payload with
      | triples ts =>
          intro q
          simp only [List.mem_map, hquads]
          constructor
          · rintro ⟨_, ⟨t, ht, rfl⟩, rfl⟩
            exact triple_inItemGraph (htriples t ht) ▸ ht
          · intro hq
            exact ⟨_, ⟨q, hq, rfl⟩, triple_inItemGraph (htriples q hq)⟩
      | event kind body => exact ⟨rfl, rfl⟩
      | chunk content contentType => exact ⟨rfl, rfl⟩

/-- An item that was decoded has the citations of its record. -/
theorem decode_citations {json : String} {quads : List Quad} (h : decode P id json quads = .ok item) :
    ∃ record, P.recordFromStr json = .ok record ∧ item.provenance.derivedFrom = record.derivedFrom.map ItemId.mk := by
  cases hrecord : P.recordFromStr json with
  | error e =>
      simp only [decode, hrecord] at h
      cases h
  | ok record =>
      refine ⟨record, rfl, ?_⟩
      simp only [decode, hrecord, bind, Except.bind] at h
      cases hhint : record.scopeHint with
      | none =>
          rw [hhint] at h
          cases h
          rfl
      | some tag =>
          rw [hhint] at h
          cases htag : ContextScope.fromTag tag with
          | none =>
              simp only [htag] at h
              cases h
          | some scope =>
              simp only [htag] at h
              cases h
              rfl

/-- A record that cannot be read makes the item unreadable. -/
theorem decode_of_error {json e : String} {quads : List Quad} (h : P.recordFromStr json = .error e) :
    decode P id json quads = .error (.corrupt ("metadata of " ++ id.display ++ ": " ++ e)) := by
  simp only [decode, h]
  rfl

end Semanticore.Context
