import Semanticore.Context.Coherence

/-!
# A query is a scan of the items

The answer is computed from the quads of the stores, metadata and stale copies included, filtered through the
index. It is what a scan of the live items gives, because every live item has its copy where the index says.
-/

namespace Semanticore.Context
open Semanticore.Core

/-! ## The scan -/

def QuadPattern.matches (p : QuadPattern) (t : Quad) : Bool := matchesPattern t p.subject p.predicate p.object none

/-- The distinct triples of an item that match the pattern. -/
def matchingTriples (p : QuadPattern) (item : ContextItem) : List Quad :=
  (item.payload.quads.filter p.matches).eraseDups

/-- The live items of a scope with a matching triple, in id order. -/
def State.scan (st : State) (p : QuadPattern) (scope : ContextScope) : List (ItemId × Entry) :=
  (st.inScope scope).filter fun x => matchingTriples p x.2.item ≠ []

/-- The items a query should return: the listed scopes once each, in the order of first mention. -/
def naiveItems (st : State) (q : ContextQuery) (p : QuadPattern) : List RankedItem :=
  applyLimit q.limit (q.scopes.listed.eraseDups.flatMap fun scope =>
    (st.scan p scope).map fun x => { id := x.1, item := x.2.item, score := 1.0, sourceScope := scope })

/-- The number of matching triples of all those items, before the limit. -/
def naiveMatched (st : State) (q : ContextQuery) (p : QuadPattern) : Nat :=
  (q.scopes.listed.eraseDups.map fun scope =>
    ((st.scan p scope).map fun x => (matchingTriples p x.2.item).length).sum).sum

variable {P : Platform} {cfg : Settings} {L : List (ItemId × ContextItem)} {σ : Session} {st : State} {p : QuadPattern}
  {s : ContextScope} {id : ItemId} {item : ContextItem} {e : Entry}

theorem mem_matchingTriples {t : Quad} :
    t ∈ matchingTriples p item ↔ t ∈ item.payload.quads ∧ p.matches t := by
  simp [matchingTriples, List.mem_eraseDups]

theorem mem_scan : (id, e) ∈ st.scan p s ↔
    st.items[id]? = some e ∧ e.scope = s ∧ ∃ t, t ∈ matchingTriples p e.item := by
  simp only [State.scan, List.mem_filter, State.mem_inScope, decide_eq_true_eq, ← List.length_pos_iff,
    List.length_pos_iff_exists_mem, and_assoc]

/-! ## The quads of one scope -/

@[simp] theorem matches_inItemGraph (p : QuadPattern) (id : ItemId) (t : Quad) :
    p.matches (inItemGraph id t) = p.matches t := rfl

/-- A matching quad in the graph of a live item is a matching triple of the item, and conversely. -/
theorem Sound.mem_matching (hσ : Sound P L σ) (hplace : σ.state.place id = some (item, s)) {q : Quad} :
    q ∈ σ.matching P p s ∧ q.graph = .named (itemGraph id) ↔ ∃ t ∈ matchingTriples p item, inItemGraph id t = q := by
  have hholds := hσ.home hplace
  simp only [Session.matching, Platform.mem_quadsForPattern, mem_matchingTriples]
  constructor
  · rintro ⟨⟨hq, hmatch⟩, hgraph⟩
    rcases mem_encode.mp (hholds.of_mem hq (Or.inl hgraph)) with ⟨t, ht, rfl⟩ | rfl
    · exact ⟨t, ⟨ht, hmatch⟩, rfl⟩
    · exact (metaGraph_ne_itemGraph id hgraph).elim
  · rintro ⟨t, ⟨ht, hmatch⟩, rfl⟩
    exact ⟨⟨hholds.mem (mem_encode.mpr (Or.inl ⟨t, ht, rfl⟩)), hmatch⟩, rfl⟩

theorem Sound.mem_found (hσ : Sound P L σ) :
    id ∈ (σ.matching P p s).filterMap (ownerIn σ.state s) ↔ ∃ e, (id, e) ∈ σ.state.scan p s := by
  simp only [List.mem_filterMap, ownerIn_eq_some, mem_scan, State.scopeOf_eq_some]
  constructor
  · rintro ⟨q, hq, hgraph, e, he, rfl⟩
    obtain ⟨t, ht, -⟩ := (hσ.mem_matching (State.place_of_live he)).mp ⟨hq, hgraph⟩
    exact ⟨e, he, rfl, t, ht⟩
  · rintro ⟨e, he, rfl, t, ht⟩
    obtain ⟨hq, hgraph⟩ := (hσ.mem_matching (State.place_of_live he)).mpr ⟨t, ht, rfl⟩
    exact ⟨_, hq, hgraph, e, he, rfl⟩

/-- The hits of a scope are the items the scan finds, in the same order. -/
theorem Sound.consulted_hits (hσ : Sound P L σ) (p : QuadPattern) (s : ContextScope) :
    (σ.consulted P p s).2 = (σ.state.scan p s).map fun x => (x.1, s) := by
  have hids : (matchedItems σ.state s (σ.matching P p s)).2.toList = (σ.state.scan p s).map (·.1) := by
    refine List.Pairwise.eq_of_mem_iff (r := (· < ·)) ?_ ?_ fun id => ?_
    · exact Std.TreeSet.ordered_toList.imp fun h => compare_lt_iff_lt.mp h
    · exact List.pairwise_map.mpr ((State.inScope_sorted σ.state s).sublist List.filter_sublist)
    · rw [Std.TreeSet.mem_toList, (matchedItems_spec _).2, hσ.mem_found]
      simp
  simp only [Session.consulted, hids, List.map_map]
  rfl

/-- The item graphs of a triple list in the default graph keep the triples apart. -/
theorem inItemGraph_injOn {ts : List Quad} (h : ∀ t ∈ ts, t.graph = .default) {t t' : Quad} (ht : t ∈ ts)
    (ht' : t' ∈ ts) (heq : inItemGraph id t = inItemGraph id t') : t = t' := by
  have hg := (h t ht).trans (h t' ht').symm
  cases t; cases t'
  simp_all [inItemGraph]

theorem nodup_matchingTriples : (matchingTriples p item).Nodup := nodup_eraseDups _

/-- The quads that count in a scope are the matching triples of its items. -/
theorem Sound.counted_perm (hσ : Sound P L σ) :
    ((σ.matching P p s).filter fun q => (ownerIn σ.state s q).isSome).Perm
      ((σ.state.scan p s).flatMap fun x => (matchingTriples p x.2.item).map (inItemGraph x.1)) := by
  have hlive : ∀ x ∈ σ.state.scan p s, σ.state.place x.1 = some (x.2.item, s) := by
    intro x hx
    obtain ⟨he, rfl, -⟩ := mem_scan.mp hx
    exact State.place_of_live he
  have hleft : ((σ.matching P p s).filter fun q => (ownerIn σ.state s q).isSome).Nodup := by
    refine List.Nodup.filter _ ?_
    exact (P.scan_perm _).nodup_iff.mpr ((σ.stores.get s).nodup.filter _)
  have hright : ((σ.state.scan p s).flatMap fun x => (matchingTriples p x.2.item).map (inItemGraph x.1)).Nodup := by
    refine List.nodup_flatMap.mpr ⟨fun x hx => ?_, ?_⟩
    · refine List.Nodup.map_on (fun t ht t' ht' heq => ?_) nodup_matchingTriples
      have htriples := hσ.triples (hσ.known (hlive x hx))
      exact inItemGraph_injOn htriples (mem_matchingTriples.mp ht).1 (mem_matchingTriples.mp ht').1 heq
    · refine ((State.inScope_sorted σ.state s).sublist List.filter_sublist).imp fun hlt q hq hq' => ?_
      obtain ⟨t, -, rfl⟩ := List.mem_map.mp hq
      obtain ⟨t', -, heq⟩ := List.mem_map.mp hq'
      have hgraph := congrArg Quad.graph heq
      simp only [inItemGraph, NamedOrDefault.named.injEq, itemGraph_inj] at hgraph
      exact hlt.ne' hgraph
  rw [List.perm_ext_iff_of_nodup hleft hright]
  intro q
  simp only [List.mem_filter, Option.isSome_iff_exists, ownerIn_eq_some, List.mem_flatMap, List.mem_map, Prod.exists]
  constructor
  · rintro ⟨hq, id, hgraph, hs⟩
    obtain ⟨e, he, rfl⟩ := State.scopeOf_eq_some.mp hs
    obtain ⟨t, ht, rfl⟩ := (hσ.mem_matching (State.place_of_live he)).mp ⟨hq, hgraph⟩
    exact ⟨id, e, mem_scan.mpr ⟨he, rfl, t, ht⟩, t, ht, rfl⟩
  · rintro ⟨id, e, hx, t, ht, rfl⟩
    obtain ⟨hq, hgraph⟩ := (hσ.mem_matching (hlive _ hx)).mpr ⟨t, ht, rfl⟩
    obtain ⟨he, hs, -⟩ := mem_scan.mp hx
    exact ⟨hq, id, hgraph, State.scopeOf_eq_some.mpr ⟨e, he, hs⟩⟩

theorem Sound.consulted_count (hσ : Sound P L σ) (p : QuadPattern) (s : ContextScope) :
    (σ.consulted P p s).1 = ((σ.state.scan p s).map fun x => (matchingTriples p x.2.item).length).sum := by
  have hcount : (σ.consulted P p s).1 = ((σ.matching P p s).filter fun q => (ownerIn σ.state s q).isSome).length := by
    rw [← List.countP_eq_length_filter, ← List.length_filterMap_eq_countP]
    exact (matchedItems_spec _).1
  rw [hcount, hσ.counted_perm.length_eq, List.length_flatMap]
  simp

/-! ## The answer -/

theorem forall₂_applyLimit {α β : Type} {R : α → β → Prop} {l : List α} {l' : List β} (h : List.Forall₂ R l l')
    (limit : Option Nat) : List.Forall₂ R (applyLimit limit l) (applyLimit limit l') := by
  cases limit with
  | none => exact h
  | some n => exact List.forall₂_take n h

theorem forall₂_flatMap {α β γ : Type} {R : β → γ → Prop} {f : α → List β} {g : α → List γ}
    (h : ∀ a, List.Forall₂ R (f a) (g a)) (l : List α) : List.Forall₂ R (l.flatMap f) (l.flatMap g) := by
  induction l with
  | nil => exact .nil
  | cons a l ih => exact List.rel_append (h a) ih

/-- The hits, ranked, are the items of the scan. -/
theorem Sound.hits_ranked (hσ : Sound P L σ) (q : ContextQuery) (p : QuadPattern) :
    List.Forall₂ (RankedAs σ) (σ.hits P q p) (naiveItems σ.state q p) := by
  refine forall₂_applyLimit ?_ q.limit
  rw [scopes_eq, List.flatMap_map]
  refine forall₂_flatMap (fun s => ?_) _
  rw [hσ.consulted_hits, List.forall₂_map_left_iff, List.forall₂_map_right_iff, List.forall₂_same]
  exact fun x hx => ⟨x.2, (mem_scan.mp hx).1, rfl⟩

theorem rankedAs_unique : Relator.RightUnique (RankedAs σ) := by
  rintro hit r r' ⟨e, he, rfl⟩ ⟨e', he', rfl⟩
  cases he.symm.trans he'
  rfl

theorem naiveItems_nodup (st : State) (q : ContextQuery) (p : QuadPattern) :
    ((naiveItems st q p).map (·.id)).Nodup := by
  refine List.Nodup.sublist ((applyLimit_sublist _ _).map _) ?_
  rw [List.map_flatMap, List.nodup_flatMap]
  constructor
  · intro s _
    rw [List.map_map]
    exact (State.inScope_nodup st s).sublist (List.filter_sublist.map _)
  · refine (nodup_eraseDups q.scopes.listed).imp fun hne id hid hid' => ?_
    simp only [List.map_map, List.mem_map, Function.comp_apply] at hid hid'
    obtain ⟨x, hx, rfl⟩ := hid
    obtain ⟨x', hx', heq⟩ := hid'
    obtain ⟨he, hs, -⟩ := mem_scan.mp hx
    obtain ⟨he', hs', -⟩ := mem_scan.mp hx'
    rw [heq] at he'
    have hentry : x.2 = x'.2 := Option.some.inj (he.symm.trans he')
    exact hne (hs.symm.trans (hentry ▸ hs'))

theorem mem_naiveItems {q : ContextQuery} {x : RankedItem} (h : x ∈ naiveItems st q p) :
    ∃ s, ∃ y ∈ st.scan p s, { id := y.1, item := y.2.item, score := 1.0, sourceScope := s } = x := by
  have hmem := (applyLimit_sublist _ _).subset h
  simp only [List.mem_flatMap, List.mem_map] at hmem
  obtain ⟨s, -, y, hy, rfl⟩ := hmem
  exact ⟨s, y, hy, rfl⟩

theorem queryPattern_ok {q : ContextQuery} (h : queryPattern q = .ok p) : q.kind = .pattern p := by
  unfold queryPattern at h
  split at h
  · split at h
    · cases h
    · cases h
      assumption
  all_goals cases h

/-- A query that returns gives what the scan gives, in every state a run reaches, whatever failed on the way: the
listed scopes once each in the order of first mention, the items of a scope in id order, the limit applied to the
merged list. No id appears twice and each carries the item passed to `add` for it. -/
theorem query_is_scan (P : Platform) (cfg : Settings) (evs : List Event) (q : ContextQuery) (fates : List Fate)
    (elapsed : List Duration) (r : ContextQueryResult)
    (h : ((World.start.run P cfg evs).perform P cfg ⟨.query q, fates, elapsed⟩).1 = .ok (.result r)) :
    let st := (World.start.run P cfg evs).session.state
    ∃ p, q.kind = .pattern p ∧ r.items = naiveItems st q p ∧ r.queryStats.quadsMatched = naiveMatched st q p ∧
      (r.items.map (·.id)).Nodup ∧
      ∀ x ∈ r.items, st.scopeOf x.id = some x.sourceScope ∧
        ∀ item, (x.id, item) ∈ World.start.issued P cfg evs ↔ item = x.item := by
  intro st
  have hσ : Sound P (World.start.issued P cfg evs) (World.start.run P cfg evs).session := sound_run P cfg evs
  obtain ⟨p, now, hpattern, -, -, hmatched, hitems, -⟩ :=
    perform_map (fun _ _ h => Reply.result.inj h) rfl query_spec h
  have hprep : Sound P (World.start.issued P cfg evs) _ :=
    hσ.same (samePlaces_prepare _ ⟨.query q, fates, elapsed⟩)
  have hnaive : r.items = naiveItems st q p :=
    List.right_unique_forall₂' rankedAs_unique hitems (hprep.hits_ranked q p)
  refine ⟨p, queryPattern_ok hpattern, hnaive, ?_, hnaive ▸ naiveItems_nodup st q p, fun x hx => ?_⟩
  · rw [hmatched, scopes_eq, List.map_map]
    exact congrArg List.sum (List.map_congr_left fun s _ => hprep.consulted_count p s)
  · obtain ⟨s, y, hy, rfl⟩ := mem_naiveItems (hnaive ▸ hx)
    obtain ⟨he, rfl, -⟩ := mem_scan.mp hy
    have hknown := hσ.known (State.place_of_live he)
    exact ⟨State.scopeOf_eq_some.mpr ⟨y.2, he, rfl⟩, fun item =>
      ⟨fun h => hσ.distinct h hknown, fun h => h ▸ hknown⟩⟩

def fact : ContextItem :=
  { payload := .triples [Quad.triple (.named ⟨"urn:a"⟩) ⟨"urn:b"⟩ (.named ⟨"urn:c"⟩)], provenance := ⟨"agent", []⟩,
    scopeHint := none, embedding := none }

/-- `serde_json` on the record of `fact`. -/
def factPlatform : Platform := .ofRecord (.ofItem fact)
  ("\x7b\"payload\":\x7b\"type\":\"triples\"\x7d,\"source\":\"agent\",\"derived_from\":[]," ++
    "\"scope_hint\":null,\"embedding\":null\x7d")

def everything : ContextQuery :=
  { scopes := .all, kind := .pattern ⟨none, none, none⟩, limit := none, reasonerHint := none }

/-- A promotion that failed half-way left a second copy in major; the answer has the item once, in minor. -/
theorem query_is_scan_stale_copy :
    let evs : List Event := [⟨.add .minor fact, [], []⟩, ⟨.promote [⟨0⟩] .minor .major, [.commit, .fail], [1]⟩]
    let w := World.start.run factPlatform (manual none) evs
    let r : ContextQueryResult :=
      { items := [{ id := ⟨0⟩, item := fact, score := 1.0, sourceScope := .minor }],
        queryStats := { scopesConsulted := 3, quadsMatched := 1, autoPromoted := 0 } }
    (w.session.stores.get .major).quads.length = 2 ∧ ∃ p, everything.kind = .pattern p ∧
      r.items = naiveItems w.session.state everything p ∧
      r.queryStats.quadsMatched = naiveMatched w.session.state everything p := by
  intro evs w r
  obtain ⟨p, hkind, hitems, hmatched, -⟩ := query_is_scan factPlatform (manual none) evs everything [] [] r rfl
  exact ⟨by decide +kernel, p, hkind, hitems, hmatched⟩

end Semanticore.Context
