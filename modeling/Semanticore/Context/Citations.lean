import Semanticore.Context.Coherence
import Semanticore.Context.Lemmas.Cut
import Semanticore.Context.Lemmas.Opening
import Semanticore.Context.Lemmas.References

/-!
# What citations mean

Ids are reused: `open` counts on from the items it finds, and a tier that was in memory is gone. A citation may dangle,
but it never comes to name an item added later: an item cites only ids below its own, and as long as it is live, or a
record of it is stored where `open` finds it, `next_id` is above both.
-/

namespace Semanticore.Context
open Semanticore.Core Semanticore.Lib

/-! ## The invariant -/

/-- The item with this id cites only ids below it. -/
def CitesBack (id : ItemId) (item : ContextItem) : Prop := ∀ c ∈ item.provenance.derivedFrom, c < id

/-- The stores hold quads of items that cite back. -/
def StoredBack (P : Platform) (stores : Tiers Store) : Prop :=
  ∀ s q, q ∈ stores.get s → ∃ id item, CitesBack id item ∧ q ∈ encode P id item

/-- Live and stored items cite back, and live ids are below `next_id`. -/
structure Backward (P : Platform) (σ : Session) : Prop where
  stored : StoredBack P σ.stores
  live : ∀ {id item s}, σ.state.place id = some (item, s) → CitesBack id item ∧ id.n.toNat < σ.state.nextId.toNat

/-- No live item cites `id`. -/
def Uncited (st : State) (id : ItemId) : Prop :=
  ∀ (c : ItemId) (e : Entry), st.items[c]? = some e → id ∉ e.item.provenance.derivedFrom

/-- A record that `serde_json` reads back has the citations it was written with. -/
def ReadsCitations (P : Platform) : Prop := ∀ item record,
  P.recordFromStr (P.jsonToString (Record.ofItem item).document) = .ok record →
    record.derivedFrom = item.provenance.derivedFrom.map (·.n)

variable {P : Platform} {cfg : Settings} {σ τ : Session} {w w' : World} {ev : Event} {stores : Tiers Store} {id : ItemId}
  {item : ContextItem} {items : List ContextItem} {scope s : ContextScope}

/-! ## Effects -/

theorem Backward.of_quads (h : Backward P σ) (hnext : τ.state.nextId = σ.state.nextId)
    (hplace : ∀ {id item s}, τ.state.place id = some (item, s) → ∃ s₀, σ.state.place id = some (item, s₀))
    (hquads : ∀ {s q}, q ∈ τ.stores.get s → q ∈ σ.stores.get s ∨
      ∃ (id : ItemId) (e : Entry), σ.state.items[id]? = some e ∧ q ∈ encode P id e.item) : Backward P τ where
  stored s q hq := by
    rcases hquads hq with hq | ⟨id, e, he, henc⟩
    · exact h.stored s q hq
    · exact ⟨id, e.item, (h.live (State.place_of_live he)).1, henc⟩
  live hplace' := by
    obtain ⟨s₀, hσ⟩ := hplace hplace'
    exact hnext ▸ h.live hσ

theorem Backward.act (h : Backward P σ) (hact : Act P cfg σ τ) : Backward P τ :=
  h.of_quads (nextId_act hact) (fun hplace => hact.trail.ends.origin hplace) hact.stored

theorem Backward.halfMove (h : Backward P σ) (hhalf : HalfMove P σ τ) : Backward P τ := by
  refine h.of_quads (nextId_halfMove hhalf) (fun {id item s} hplace => ⟨s, ?_⟩) hhalf.stored
  obtain ⟨_, _, _, -, -, rfl⟩ := hhalf
  exact hplace

theorem Backward.ends (h : Backward P σ) (hends : Ends P cfg σ τ) : Backward P τ :=
  hends.keeps (fun hact h => h.act hact) (fun hhalf h => h.halfMove hhalf) h

theorem Backward.same (h : Backward P σ) (hsame : SamePlaces σ τ) : Backward P τ where
  stored := hsame.stores ▸ h.stored
  live hplace := hsame.nextId ▸ h.live (hsame.place _ ▸ hplace)

/-- The items of a batch cite live items, whose ids are below the ids of the batch. -/
theorem Backward.batch (h : Backward P σ) (hadm : Admissible σ items) (hp : (id, item) ∈ σ.batch items) :
    CitesBack id item ∧ ∀ c ∈ item.provenance.derivedFrom, c.n.toNat < σ.state.nextId.toNat := by
  have hcited : ∀ c ∈ item.provenance.derivedFrom, c.n.toNat < σ.state.nextId.toNat := by
    intro c hc
    have hitem : item ∈ (σ.batch items).map Prod.snd := List.mem_map_of_mem hp
    rw [Session.batch_items] at hitem
    have hlive := (validate_ok.mp (hadm.valid item hitem)).2.2.2 c hc
    obtain ⟨e, he⟩ : ∃ e : Entry, σ.state.items[c]? = some e := by
      simpa [← Std.TreeMap.isSome_getElem?_eq_contains, Option.isSome_iff_exists] using hlive
    exact (h.live (State.place_of_live he)).2
  have hlow := (Session.mem_batch_ids hadm.room hp).1
  exact ⟨fun c hc => ItemId.lt_iff_toNat.mpr ((hcited c hc).trans_le hlow), hcited⟩

theorem Backward.added (h : Backward P σ) (hadm : Admissible σ items) (now : Instant) :
    Backward P (σ.added P scope items now) where
  stored s q hq := by
    rcases Session.mem_added.mp hq with hq | ⟨-, p, hp, henc⟩
    · exact h.stored s q hq
    · exact ⟨p.1, p.2, (h.batch hadm hp).1, henc⟩
  live {id item s} hplace := by
    rw [Session.nextId_added hadm.room]
    rcases Session.place_added_cases hadm.room hplace with hp | hplace
    · exact ⟨(h.batch hadm hp).1, (Session.mem_batch_ids hadm.room hp).2⟩
    · exact ⟨(h.live hplace).1, (h.live hplace).2.trans_le (Nat.le_add_right ..)⟩

/-! ## Calls and crashes -/

theorem Backward.begins {t t' : Instant} (h : Backward P w.session)
    (hbegin : Begins P cfg t t' ev.op (w.prepare ev).session τ) (hends : Ends P cfg τ (w.step P cfg ev).session) :
    Backward P τ := by
  have hprep : Backward P (w.prepare ev).session := h.same (samePlaces_prepare w ev)
  rcases issuedBy_of_begins hbegin hends with ⟨scope, items, now, -, hadm, rfl, -⟩ | ⟨hsame, -⟩
  · exact hprep.added hadm now
  · exact hprep.same hsame

theorem Backward.step (h : Backward P w.session) : Backward P (w.step P cfg ev).session := by
  obtain ⟨τ, hbegin, hends, -⟩ := step_spec P cfg w ev
  exact (h.begins hbegin hends).ends hends

theorem Backward.crash (h : Backward P w.session) (k : Nat) : StoredBack P (w.crash P cfg ev k).session.stores := by
  obtain ⟨τ, hbegin, hends, -⟩ := step_spec P cfg w ev
  have hτ := h.begins hbegin hends
  obtain ⟨marks, hmarks⟩ := hends.commits
  obtain ⟨ρ, hρ, hstores⟩ := crash_stores hbegin hmarks hends k
  rw [hstores]
  rcases hρ with rfl | hρ
  · exact h.stored
  · exact (hτ.ends hρ).stored

/-! ## Opening -/

/-- An item that is loaded cites what the item cited that was written. -/
theorem StoredBack.load (hread : ReadsCitations P) (h : StoredBack P stores) {loaded : List (ItemId × ContextItem)}
    (hload : load P (stores.get s) = .ok loaded) (hmem : (id, item) ∈ loaded) : CitesBack id item := by
  obtain ⟨q, hq, hok⟩ := (mem_mapM hload).mp hmem
  simp only [Platform.mem_quadsForPattern, matchesPattern, Option.all_none, Option.all_some, Bool.true_and,
    Bool.and_true, Bool.and_eq_true, decide_eq_true_eq] at hq
  obtain ⟨id', item', hback, henc⟩ := h s q hq.1
  obtain rfl := eq_metadataQuad henc hq.2.2
  cases itemGraph_injective (NamedOrBlankNode.named.inj (loadRecord_subject hok))
  rw [loadRecord_metadataQuad] at hok
  cases hdecode : decode P id (P.jsonToString (Record.ofItem item').document)
      (P.quadsForPattern (stores.get s) none none none (some (.named (itemGraph id)))) with
  | error e =>
      rw [hdecode] at hok
      cases hok
  | ok decoded =>
      rw [hdecode] at hok
      cases hok
      obtain ⟨record, hrecord, hcited⟩ := decode_citations hdecode
      have hsame : item.provenance.derivedFrom = item'.provenance.derivedFrom := by
        rw [hcited, hread item' record hrecord, List.map_map]
        simp [Function.comp_def]
      exact fun c hc => hback c (hsame ▸ hc)

theorem StoredBack.opened (hread : ReadsCitations P) (h : StoredBack P w.session.stores) {persistent : Tiers Bool}
    (hopen : (openSession P persistent).run.run w = (.ok (), w')) : Backward P w'.session := by
  obtain ⟨-, hstores, hloaded, -⟩ := open_loaded.ok hopen
  refine ⟨hstores ▸ h, fun {id item s} hplace => ?_⟩
  obtain ⟨e, he, rfl, rfl⟩ := State.place_eq_some.mp hplace
  obtain ⟨-, loaded, hload, hmem⟩ := hloaded.entry id e he
  exact ⟨h.load hread hload hmem, hloaded.fresh id e he⟩

theorem StoredBack.lost (h : StoredBack P stores) (scope : ContextScope) :
    StoredBack P (stores.set scope .empty) := by
  intro s q hq
  rw [Tiers.get_set] at hq
  split at hq
  · simp at hq
  · exact h s q hq

/-- The invariant, with or without a Session. -/
def Stage.Backward (P : Platform) : Stage → Prop
  | .closed stores => StoredBack P stores
  | .live w => Context.Backward P w.session

theorem History.backward (hread : ReadsCitations P) {stage : Stage} (h : History P stage) : stage.Backward P := by
  induction h with
  | start => exact fun s q hq => by simp at hq
  | opened persistent h hopen ih => exact StoredBack.opened hread ih hopen
  | called cfg ev h ih => exact Context.Backward.step ih
  | closed h ih => exact Context.Backward.stored ih
  | crashed cfg ev k h ih => exact Context.Backward.crash ih k
  | lost scope h ih => exact StoredBack.lost ih scope

/-! ## New ids -/

/-- What a call adds cites items that were live before. -/
theorem Backward.issued (h : Backward P w.session) {p : ItemId × ContextItem} (hp : p ∈ w.issuedBy P cfg ev) :
    ∀ c ∈ p.2.provenance.derivedFrom, c.n.toNat < w.session.state.nextId.toNat := by
  obtain ⟨τ, hbegin, hends, -⟩ := step_spec P cfg w ev
  have hprep : Backward P (w.prepare ev).session := h.same (samePlaces_prepare w ev)
  rcases issuedBy_of_begins hbegin hends with ⟨scope, items, now, -, hadm, -, hissued⟩ | ⟨-, hissued⟩
  · exact (hprep.batch hadm (hissued ▸ hp)).2
  · rw [hissued] at hp
    exact (List.not_mem_nil hp).elim

/-- Ids from `next_id` on are not cited. -/
theorem Backward.uncited (h : Backward P σ) (hid : σ.state.nextId.toNat ≤ id.n.toNat) : Uncited σ.state id := by
  intro c e he hcited
  obtain ⟨hback, hlt⟩ := h.live (State.place_of_live he)
  have hbelow := ItemId.lt_iff_toNat.mp (hback id hcited)
  omega

/-- A call does not make items cite the ids it issues. -/
theorem Backward.uncited_step (h : Backward P w.session) (hid : w.session.state.nextId.toNat ≤ id.n.toNat) :
    Uncited (w.step P cfg ev).session.state id := by
  intro c e he hcited
  rcases origin_step P cfg w ev (State.place_of_live he) with hissued | ⟨s₀, hplace⟩
  · exact absurd (h.issued hissued id hcited) (not_lt.mpr hid)
  · obtain ⟨e₀, he₀, hitem, -⟩ := State.place_eq_some.mp hplace
    exact h.uncited hid c e₀ he₀ (hitem ▸ hcited)

/-- Later only items added later cite an id. -/
theorem citers_run (P : Platform) (cfg : Settings) (hid : Uncited w.session.state id) (evs : List Event) :
    (w.run P cfg evs).session.state.citers id ⊆ {c | c ∈ (w.issued P cfg evs).map Prod.fst} := by
  rintro c ⟨-, e, he, hcited⟩
  rcases origin_run P cfg w evs (State.place_of_live he) with hissued | ⟨s₀, hplace⟩
  · exact List.mem_map.mpr ⟨_, hissued, rfl⟩
  · obtain ⟨e₀, he₀, hitem, -⟩ := State.place_eq_some.mp hplace
    exact absurd (hitem ▸ hcited) (hid c e₀ he₀)

/-- In every history of Sessions on stores that were empty at first, no live item cites an id that a call issues, neither
before nor after the call; and in the rest of the Session what auto-promotion counts as references to that id are the
live items that cite it and were added after it. -/
theorem issued_ids_uncited (P : Platform) (hread : ReadsCitations P) {w : World} (h : History P (.live w))
    (cfg : Settings) (ev : Event) {p : ItemId × ContextItem} (hp : p ∈ w.issuedBy P cfg ev) :
    let w₁ := w.step P cfg ev
    Uncited w.session.state p.1 ∧ Uncited w₁.session.state p.1 ∧ ∀ evs,
      let later := (w₁.run P cfg evs).session.state
      (referenceCounts later.items)[p.1]?.getD 0 =
        {c | c ∈ (w₁.issued P cfg evs).map Prod.fst ∧ c ∈ later.citers p.1}.ncard := by
  intro w₁
  have hback : Backward P w.session := h.backward hread
  have hnew := (issuedBy_ge P cfg w ev).1 p hp
  have hstep : Uncited w₁.session.state p.1 := hback.uncited_step hnew
  refine ⟨hback.uncited hnew, hstep, fun evs => (referenceCounts_eq ..).trans (congrArg Set.ncard ?_)⟩
  exact Set.ext fun c => ⟨fun hc => ⟨citers_run P cfg hstep evs hc, hc⟩, fun hc => hc.2⟩

/-! ### An id issued twice -/

/-- A note that cites. -/
def citing (ids : List ItemId) : ContextItem := { note with provenance := { note.provenance with derivedFrom := ids } }

/-- The text of the record of a note. -/
def noteText (cited : String) : String :=
  "\x7b\"payload\":\x7b\"type\":\"chunk\",\"content\":\"note\",\"content_type\":\"text/plain\"\x7d," ++
    "\"source\":\"urn:semanticore:context:item:0\",\"derived_from\":[" ++ cited ++
    "],\"scope_hint\":null,\"embedding\":null\x7d"

def Json.asNumber : Json → Option Number
  | .number n => some n
  | _ => none

def Json.numbers : Json → List Number
  | .array xs => xs.filterMap Json.asNumber
  | _ => []

/-- The numbers under `derived_from`. -/
def derivedFromIn : Json → List Number
  | .object fields => (fields.filter (·.1 = "derived_from")).flatMap (·.2.numbers)
  | _ => []

/-- `serde_json` on the records of notes that cite nothing or the first item. -/
def notesPlatform : Platform where
  jsonToString json :=
    if derivedFromIn json = [] then noteText ""
    else if derivedFromIn json = [.posInt 0] then noteText "0"
    else ""
  recordFromStr s :=
    if s = noteText "" then .ok (.ofItem (citing []))
    else if s = noteText "0" then .ok (.ofItem (citing [⟨0⟩]))
    else .error "EOF while parsing a value at line 1 column 0"
  scan quads := quads
  scan_perm _ := .refl _

theorem derivedFromIn_document (item : ContextItem) :
    derivedFromIn (Record.ofItem item).document = item.provenance.derivedFrom.map fun id => .posInt id.n := by
  simp [derivedFromIn, Record.document, Record.ofItem, Json.numbers, List.filterMap_map, Function.comp_def, Json.asNumber]

theorem notesPlatform_reads : ReadsCitations notesPlatform := by
  intro item record hread
  have hne : noteText "0" ≠ noteText "" := by decide +kernel
  have hnothing : notesPlatform.recordFromStr (noteText "") = .ok (.ofItem (citing [])) := by simp [notesPlatform]
  have hfirst : notesPlatform.recordFromStr (noteText "0") = .ok (.ofItem (citing [⟨0⟩])) := by
    simp [notesPlatform, hne]
  have htext : notesPlatform.jsonToString (Record.ofItem item).document =
      if (item.provenance.derivedFrom.map fun id => Number.posInt id.n) = [] then noteText ""
      else if (item.provenance.derivedFrom.map fun id => Number.posInt id.n) = [.posInt 0] then noteText "0"
      else "" := by
    rw [← derivedFromIn_document]
    rfl
  rw [htext] at hread
  split_ifs at hread with hnone hone
  · cases hnothing.symm.trans hread
    rw [List.map_eq_nil_iff.mp hnone]
    rfl
  · cases hfirst.symm.trans hread
    cases hcited : item.provenance.derivedFrom with
    | nil => simp [hcited] at hone
    | cons c cs =>
        simp only [hcited, List.map_cons, List.cons.injEq, Number.posInt.injEq, List.map_eq_nil_iff] at hone
        simp [hone.1, hone.2, Record.ofItem, citing]
  · cases hread

/-- Three notes, the second of which cites the first; the tier of the first and the third is lost when the Session is
closed. -/
def beforeLoss : World :=
  World.start.run notesPlatform (manual none)
    [⟨.add .minor note, [], []⟩, ⟨.add .major (citing [⟨0⟩]), [], []⟩, ⟨.add .minor note, [], []⟩]

/-- The stores at the next `open`. -/
def loss : World :=
  { beforeLoss with session := { beforeLoss.session with stores := beforeLoss.session.stores.set .minor .empty } }

def afterLoss : World := ((openSession notesPlatform (.const true)).run.run loss).2

/-- The id of the third note is issued again, and the second note still cites the first only. -/
theorem issued_ids_uncited_after_loss :
    beforeLoss.session.state.items.keys = [⟨0⟩, ⟨1⟩, ⟨2⟩] ∧ afterLoss.session.state.items.keys = [⟨1⟩] ∧
      Uncited afterLoss.session.state ⟨2⟩ ∧
      Uncited (afterLoss.step notesPlatform (manual none) ⟨.add .minor note, [], []⟩).session.state ⟨2⟩ := by
  have hstart : History notesPlatform (.live World.start) := .opened (w := World.start) (.const true) .start rfl
  have hrun : History notesPlatform (.live beforeLoss) := ((hstart.called (manual none) _).called _ _).called _ _
  have hclosed : History notesPlatform (.closed loss.session.stores) := hrun.closed.lost .minor
  have hok : ((openSession notesPlatform (.const true)).run.run loss).1 = .ok () := by decide +kernel
  have hloss : History notesPlatform (.live afterLoss) :=
    .opened (w := loss) (.const true) hclosed (Prod.ext hok (by rw [afterLoss]))
  have hissued : (⟨2⟩, note) ∈ afterLoss.issuedBy notesPlatform (manual none) ⟨.add .minor note, [], []⟩ := by
    have hfirst : afterLoss.session.state.nextId = 2 := by decide +kernel
    have hnext : (afterLoss.step notesPlatform (manual none) ⟨.add .minor note, [], []⟩).session.state.nextId = 3 := by
      decide +kernel
    rw [World.issuedBy, hfirst, hnext]
    exact List.mem_cons_self
  have h := issued_ids_uncited notesPlatform notesPlatform_reads hloss (manual none) ⟨.add .minor note, [], []⟩ hissued
  exact ⟨by decide +kernel, by decide +kernel, h.1, h.2.1⟩

end Semanticore.Context
