import Semanticore.Context.Coherence
import Semanticore.Context.Lemmas.Decode

/-!
# Accepted items and reading them back

`validate` looks at the source, the triples, the embedding and the citations, but not at how deep an event body is
nested. The record wraps the body in two more levels, and `serde_json` reads 127 levels and no more.
-/

namespace Semanticore.Context
open Semanticore.Core

/-- What `serde_json` does with a record: reading inverts writing up to 127 nested levels and fails beyond. -/
structure Platform.Serde (P : Platform) (r : Record) : Prop where
  shallow : (∀ x ∈ r.embedding.getD [], x.isFinite = true) → r.document.depth ≤ 127 →
    P.recordFromStr (P.jsonToString r.document) = .ok r
  deep : 128 ≤ r.document.depth → ∃ e, P.recordFromStr (P.jsonToString r.document) = .error e

/-- Decoding the metadata literal and the item-graph quads that `encode` produces. -/
def readBack (P : Platform) (id : ItemId) (item : ContextItem) : Except SessionError ContextItem :=
  decode P id (P.jsonToString (Record.ofItem item).document)
    ((encode P id item).filter (·.graph = .named (itemGraph id)))

/-! ## The depth of a record -/

def ContextPayload.bodyDepth : ContextPayload → Nat
  | .event _ body => body.depth
  | .triples _ => 0
  | .chunk _ _ => 0

theorem depthList_scalars {α : Type} {f : α → Json} (h : ∀ a, (f a).depth = 0) (l : List α) :
    Json.depthList (l.map f) = 0 := by
  induction l with
  | nil => simp [Json.depthList]
  | cons a l ih => simp [Json.depthList, h, ih]

theorem depth_f32 (x : F32) : x.document.depth = 0 := by
  unfold F32.document
  split <;> simp [Json.depth]

/-- The body of an event is two levels below the record. -/
theorem depth_document (item : ContextItem) :
    (Record.ofItem item).document.depth = 2 + item.payload.bodyDepth := by
  have hcited : ∀ l : List UInt64, Json.depthList (l.map fun n => .number (.posInt n)) = 0 :=
    depthList_scalars fun _ => by simp [Json.depth]
  have hpayload : (Record.ofItem item).payload.document.depth = 1 + item.payload.bodyDepth := by
    unfold Record.ofItem
    cases item.payload <;> simp [RecordPayload.document, Json.depth, Json.depthFields, ContextPayload.bodyDepth]
  have hhint : (Json.ofOption .string (Record.ofItem item).scopeHint).depth = 0 := by
    cases (Record.ofItem item).scopeHint <;> simp [Json.ofOption, Json.depth]
  have hembedding : (Json.ofOption (fun v => .array (v.map F32.document)) (Record.ofItem item).embedding).depth ≤ 1 := by
    cases (Record.ofItem item).embedding <;> simp [Json.ofOption, Json.depth, depthList_scalars depth_f32]
  simp only [Record.document, Json.depth, Json.depthFields, hpayload, hcited, hhint]
  omega

/-! ## Reading back -/

theorem mem_graphQuads {P : Platform} {id : ItemId} {item : ContextItem} {q : Quad} :
    q ∈ (encode P id item).filter (·.graph = .named (itemGraph id)) ↔
      ∃ t ∈ item.payload.quads, inItemGraph id t = q := by
  simp only [List.mem_filter, decide_eq_true_eq]
  constructor
  · rintro ⟨hq, hgraph⟩
    rcases mem_encode.mp hq with h | rfl
    · exact h
    · exact (metaGraph_ne_itemGraph id hgraph).elim
  · rintro ⟨t, ht, rfl⟩
    exact ⟨mem_encode.mpr (Or.inl ⟨t, ht, rfl⟩), rfl⟩

/-- An accepted item comes back equal exactly when it is no event, or an event whose body is nested at most 125
levels deep. -/
theorem reads_back_iff (P : Platform) (st : State) (id : ItemId) (item : ContextItem)
    (hserde : P.Serde (Record.ofItem item)) (hvalid : validate st item = .ok ()) :
    (∃ item', readBack P id item = .ok item' ∧ SameContent item' item) ↔
      ∀ kind body, item.payload = .event kind body → body.depth ≤ 125 := by
  have hdepth := depth_document item
  have hcond : (∀ kind body, item.payload = .event kind body → body.depth ≤ 125) ↔ item.payload.bodyDepth ≤ 125 := by
    cases item.payload <;> simp [ContextPayload.bodyDepth]
  obtain ⟨-, htriples, hfinite, -⟩ := validate_ok.mp hvalid
  rw [hcond]
  constructor
  · rintro ⟨item', hread, -⟩
    by_contra hdeep
    obtain ⟨e, he⟩ := hserde.deep (by omega)
    rw [readBack, decode_of_error he] at hread
    cases hread
  · intro hle
    have hrecord := hserde.shallow hfinite (by omega)
    exact ⟨_, decode_ofItem _ hrecord, sameContent_decoded htriples fun q => mem_graphQuads⟩

/-! ## An event at the limit and one beyond it -/

/-- An array nested `n` levels deep. -/
def nestedArray : Nat → Json
  | 0 => .null
  | n + 1 => .array [nestedArray n]

theorem depth_nestedArray (n : Nat) : (nestedArray n).depth = n := by
  induction n with
  | zero => simp [nestedArray, Json.depth]
  | succ n ih =>
      simp only [nestedArray, Json.depth, Json.depthList, ih]
      omega

def nestedEvent (n : Nat) : ContextItem :=
  { payload := .event "k" (nestedArray n), provenance := ⟨"agent", []⟩, scopeHint := none, embedding := none }

theorem validate_nestedEvent (st : State) (n : Nat) : validate st (nestedEvent n) = .ok () := by
  have hsource : trimIsEmpty "agent" = false := by decide
  exact validate_ok.mpr ⟨hsource, by simp [nestedEvent, ContextPayload.quads], by simp [nestedEvent], by simp [nestedEvent]⟩

theorem depth_nestedEvent (n : Nat) : (Record.ofItem (nestedEvent n)).document.depth = 2 + n := by
  rw [depth_document]
  exact congrArg (2 + ·) (depth_nestedArray n)

/-- The text of the record of `nestedEvent n`. -/
def nestedText (n : Nat) : String :=
  "\x7b\"payload\":\x7b\"type\":\"event\",\"kind\":\"k\",\"body\":" ++ String.ofList (List.replicate n '[') ++ "null" ++
    String.ofList (List.replicate n ']') ++
    "\x7d,\"source\":\"agent\",\"derived_from\":[],\"scope_hint\":null,\"embedding\":null\x7d"

theorem reads_back_at_limit :
    ∃ item', readBack (.ofRecord (.ofItem (nestedEvent 125)) (nestedText 125)) ⟨7⟩ (nestedEvent 125) = .ok item' ∧
      SameContent item' (nestedEvent 125) := by
  have hserde : (Platform.ofRecord (.ofItem (nestedEvent 125)) (nestedText 125)).Serde (.ofItem (nestedEvent 125)) :=
    ⟨fun _ _ => by simp [Platform.ofRecord], fun h => by rw [depth_nestedEvent] at h; omega⟩
  refine (reads_back_iff _ .empty ⟨7⟩ _ hserde (validate_nestedEvent _ _)).mpr ?_
  rintro kind body h
  cases h
  exact (depth_nestedArray 125).le

/-- `serde_json` on the record of an event whose body is nested 126 levels deep. -/
def tooDeepPlatform : Platform where
  jsonToString _ := nestedText 126
  recordFromStr _ := .error "recursion limit exceeded at line 1 column 171"
  scan quads := quads
  scan_perm _ := .refl _

/-- The event is accepted and stored, cannot be read back, and every later `open` of its store fails. -/
theorem accepted_event_unreadable :
    let w := World.start.run tooDeepPlatform (manual none) [⟨.add .enduring (nestedEvent 126), [], []⟩]
    let reason := "metadata of item:0: recursion limit exceeded at line 1 column 171"
    tooDeepPlatform.Serde (.ofItem (nestedEvent 126)) ∧ validate .empty (nestedEvent 126) = .ok () ∧
      readBack tooDeepPlatform ⟨0⟩ (nestedEvent 126) = .error (.corrupt reason) ∧
      w.session.state.scopeOf ⟨0⟩ = some .enduring ∧
      ((openSession tooDeepPlatform (.const true)).run.run w).1 = .error (.err (.corrupt reason)) := by
  refine ⟨⟨fun _ h => ?_, fun _ => ⟨_, rfl⟩⟩, validate_nestedEvent _ _, ?_, ?_, ?_⟩
  · rw [depth_nestedEvent] at h
    omega
  · rw [readBack, decode_of_error rfl]
    rfl
  · decide +kernel
  · rfl

end Semanticore.Context
