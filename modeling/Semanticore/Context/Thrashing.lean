import Semanticore.Context.QueryScan
import Semanticore.Context.Lemmas.Cut

/-!
# Demotion under one step, then drop

An eviction demotes an item only if it arrived by promotion, and marks it as demoted. The mark stands until the item
is promoted again, and so the item is not demoted twice unless it is.
-/

namespace Semanticore.Context
open Semanticore.Core Semanticore.Lib

variable {P : Platform} {cfg : Settings} {D : List ItemId} {σ τ : Session} {w : World} {ev : Event} {evs : List Event}
  {id : ItemId} {e : Entry} {scope target : ContextScope} {arrival : Arrival} {now : Instant}

/-! ## What a sequence of operations demotes and what it may promote -/

/-- The items that marks say were demoted, in order. -/
def demotions (marks : List Mark) : List ItemId :=
  marks.filterMap fun
    | .moved id source target => if target < source then some id else none
    | .commit .. => none
    | .selected .. => none
    | .dropped _ => none

/-- The items that the operations of a run demote, in order. -/
def World.demotedBy (P : Platform) (cfg : Settings) (w : World) : List Event → List ItemId
  | [] => []
  | ev :: evs => demotions (w.step P cfg ev).session.log ++ (w.step P cfg ev).demotedBy P cfg evs

/-- The items to which an auto-promotion rule applies at the end of a query, when its hits are counted as accesses. -/
def World.promotableAt (P : Platform) (cfg : Settings) (w : World) (ev : Event) : List ItemId :=
  match ev.op, cfg.promotion.cadence with
  | .query q, .afterEachQuery => match queryPattern q with
      | .ok pattern =>
          let now := (w.prepare ev).reading
          let σ := (w.prepare ev).session
          let st := (σ.answered cfg now ((σ.hits P q pattern).map (·.1))).state
          promotable cfg st now .enduring ++ promotable cfg st now .major
      | .error _ => []
  | _, _ => []

/-! ## Demotions in the log -/

@[simp] theorem demotions_append (marks marks' : List Mark) :
    demotions (marks ++ marks') = demotions marks ++ demotions marks' := List.filterMap_append

theorem demotions_moved : demotions (σ.moved P id e target arrival).log =
    demotions σ.log ++ if target < e.scope then [id] else [] := by
  simp only [Session.moved, Session.note, Session.mapState, Session.deleted, Session.copied, Session.commit,
    demotions_append, List.append_assoc]
  by_cases h : target < e.scope <;> simp [demotions, h]

theorem demotions_dropped : demotions (σ.dropped P id e).log = demotions σ.log := by
  simp only [Session.dropped, Session.note, Session.mapState, Session.deleted, Session.commit, demotions_append]
  simp [demotions]

/-! ## The invariant -/

/-- No item of `D` and no item demoted since was demoted twice, and those that are live are marked as demoted. -/
structure Marked (D : List ItemId) (σ : Session) : Prop where
  nodup : (D ++ demotions σ.log).Nodup
  marks : ∀ id ∈ D ++ demotions σ.log, ∀ e : Entry, σ.state.items[id]? = some e → e.arrival = .demoted

theorem Marked.congr (h : Marked D σ) (hlog : demotions τ.log = demotions σ.log)
    (hitems : ∀ (id : ItemId) (e : Entry), τ.state.items[id]? = some e →
      ∃ e' : Entry, σ.state.items[id]? = some e' ∧ e'.arrival = e.arrival) : Marked D τ := by
  refine ⟨hlog ▸ h.nodup, fun id hid e he => ?_⟩
  obtain ⟨e', he', heq⟩ := hitems id e he
  exact heq ▸ h.marks id (hlog ▸ hid) e' he'

theorem Marked.counted (h : Marked D σ) (served promoted demoted : Nat) : Marked D (σ.counted served promoted demoted) :=
  h.congr rfl fun _ e he => ⟨e, he, rfl⟩

/-- Moving an item that was not demoted before; only a demotion moves it down. -/
theorem Marked.moved (h : Marked D σ) (hfresh : id ∉ D ++ demotions σ.log)
    (hdown : target < e.scope → arrival = .demoted) : Marked D (σ.moved P id e target arrival) := by
  by_cases hlt : target < e.scope
  · have hlog : D ++ demotions (σ.moved P id e target arrival).log = D ++ demotions σ.log ++ [id] := by
      rw [demotions_moved, if_pos hlt, List.append_assoc]
    refine ⟨?_, fun id' hid' e' he' => ?_⟩
    · rw [hlog]
      exact List.nodup_append.mpr ⟨h.nodup, List.nodup_singleton id, fun a ha b hb heq => hfresh (by simp_all)⟩
    · rw [Session.items_moved] at he'
      split at he'
      · cases he'
        exact hdown hlt
      · rename_i hne
        rw [hlog, List.mem_append, List.mem_singleton] at hid'
        exact h.marks id' (hid'.resolve_right fun heq => hne heq.symm) e' he'
  · have hlog : demotions (σ.moved P id e target arrival).log = demotions σ.log := by
      rw [demotions_moved, if_neg hlt, List.append_nil]
    refine ⟨hlog ▸ h.nodup, fun id' hid' e' he' => ?_⟩
    rw [hlog] at hid'
    rw [Session.items_moved, if_neg fun heq : id = id' => hfresh (heq ▸ hid')] at he'
    exact h.marks id' hid' e' he'

theorem evictionTarget_promoted (hpolicy : cfg.demotionTarget = .oneStepThenDrop)
    (h : evictionTarget cfg scope arrival = some target) : arrival = .promoted := by
  unfold evictionTarget at h
  rw [hpolicy] at h
  cases arrival with
  | promoted => rfl
  | added => cases h
  | demoted => cases h

theorem Marked.evictVictim (hpolicy : cfg.demotionTarget = .oneStepThenDrop) (h : Marked D σ) :
    Marked D (σ.evictVictim P cfg scope id) := by
  unfold Session.evictVictim
  split
  · exact h
  · rename_i e he
    split
    · rename_i colder hcolder
      have hpromoted := evictionTarget_promoted hpolicy hcolder
      have hfresh : id ∉ D ++ demotions σ.log := fun hid => by
        have hdemoted := h.marks id hid e he
        rw [hpromoted] at hdemoted
        cases hdemoted
      exact (h.moved hfresh fun _ => rfl).counted 0 0 1
    · refine h.congr demotions_dropped fun id' e' he' => ?_
      rw [Session.items_dropped] at he'
      split at he'
      · cases he'
      · exact ⟨e', he', rfl⟩

theorem Marked.enforceTier (hpolicy : cfg.demotionTarget = .oneStepThenDrop) (h : Marked D σ) :
    Marked D (σ.enforceTier P cfg now scope) := by
  have hloop : ∀ (ids : List ItemId) (σ : Session), Marked D σ → Marked D (σ.evictVictims P cfg scope ids) := by
    intro ids
    induction ids with
    | nil => exact fun _ h => h
    | cons id ids ih => exact fun σ h => ih _ (h.evictVictim hpolicy)
  unfold Session.enforceTier
  split
  · exact h
  · refine hloop _ _ (h.congr ?_ fun _ e he => ⟨e, he, rfl⟩)
    simp [Session.selected, Session.note, demotions]

theorem Marked.sweep {scopes : List ContextScope} (hpolicy : cfg.demotionTarget = .oneStepThenDrop) (h : Marked D σ)
    (hsweep : Sweep P cfg scopes σ τ) : Marked D τ := by
  induction hsweep with
  | nil => exact h
  | cons now _ ih => exact ih (h.enforceTier hpolicy)

/-- Promoting items that were not demoted before. -/
theorem Marked.promote {ids : List ItemId} (h : Marked D σ) (hnodup : ids.Nodup)
    (hlive : ∀ id ∈ ids, ∃ e : Entry, σ.state.items[id]? = some e ∧ e.scope < target)
    (hfresh : ∀ id ∈ ids, id ∉ D ++ demotions σ.log) :
    Marked D (σ.moveItems P ids target .promoted) ∧
      demotions (σ.moveItems P ids target .promoted).log = demotions σ.log := by
  induction ids generalizing σ with
  | nil => exact ⟨h, rfl⟩
  | cons id ids ih =>
      obtain ⟨hid, hids⟩ := List.nodup_cons.mp hnodup
      obtain ⟨e, he, hlt⟩ := hlive id (by simp)
      have hup : ¬ target < e.scope := not_lt.mpr hlt.le
      have hlog : demotions (σ.moved P id e target .promoted).log = demotions σ.log := by
        rw [demotions_moved, if_neg hup, List.append_nil]
      have hmoved : Marked D (σ.moved P id e target .promoted) :=
        h.moved (hfresh id (by simp)) fun hdown => absurd hdown hup
      have hrest := ih hmoved hids
        (fun id' hid' => by
          rw [Session.items_moved, if_neg fun heq : id = id' => hid (heq ▸ hid')]
          exact hlive id' (by simp [hid']))
        fun id' hid' => hlog ▸ hfresh id' (by simp [hid'])
      have hstep : σ.moveItems P (id :: ids) target .promoted =
          (σ.moved P id e target .promoted).moveItems P ids target .promoted := by
        rw [← Session.moveItem_of_live he]
        rfl
      rw [hstep]
      exact ⟨hrest.1, hrest.2.trans hlog⟩

/-- Auto-promotion, if the rules apply to no item that was demoted before. -/
theorem Marked.autoPromoted (h : Marked D σ)
    (hfresh : ∀ id ∈ promotable cfg σ.state now .enduring ++ promotable cfg σ.state now .major,
      id ∉ D ++ demotions σ.log) : Marked D (σ.autoPromoted P cfg now) := by
  have hlive : ∀ target, ∀ id ∈ promotable cfg σ.state now target,
      ∃ e : Entry, σ.state.items[id]? = some e ∧ e.scope < target := by
    intro target id hid
    obtain ⟨e, he, htarget⟩ := mem_promotable.mp hid
    exact ⟨e, he, ContextScope.colder_lt (promotionTarget_colder htarget)⟩
  obtain ⟨hE, hlog⟩ := h.promote (P := P) (promotable_nodup _ _ _) (hlive .enduring) fun id hid =>
    hfresh id (List.mem_append_left _ hid)
  refine Marked.counted (hE.promote (promotable_nodup _ _ _) (fun id hid => ?_) fun id hid => ?_).1 0 _ 0
  · -- The rules send an item to one scope, so the first loop left it alone.
    obtain ⟨e, he, htarget⟩ := mem_promotable.mp hid
    have hother : id ∉ promotable cfg σ.state now .enduring := fun hid' => by
      obtain ⟨e', he', htarget'⟩ := mem_promotable.mp hid'
      cases he.symm.trans he'
      cases htarget.symm.trans htarget'
    rw [Session.items_moveItems (promotable_nodup _ _ _), if_neg hother]
    exact hlive .major id hid
  · rw [hlog]
    exact hfresh id (List.mem_append_right _ hid)

/-! ## Queries -/

theorem Marked.answered (h : Marked D σ) (now : Instant) (ids : List ItemId) : Marked D (σ.answered cfg now ids) := by
  have hone : ∀ (σ : Session) (id : ItemId), Marked D σ → Marked D (σ.access cfg now id) := by
    intro σ id h
    refine h.congr (by rw [log_access]) fun id' e' he' => ?_
    by_cases hid : id = id'
    · subst hid
      unfold Session.access at he'
      split at he'
      · exact ⟨e', he', rfl⟩
      · rename_i e he
        rw [Session.items_touched, if_pos rfl] at he'
        cases he'
        exact ⟨e, he, by rw [Entry.touch_arrival]⟩
    · rw [Session.items_access_ne hid] at he'
      exact ⟨e', he', rfl⟩
  have hloop : Marked D (ids.foldl (Session.access cfg now) σ) := by
    induction ids generalizing σ with
    | nil => exact h
    | cons id ids ih => exact ih (hone σ id h)
  exact hloop.counted 1 0 0

/-- A query keeps the invariant if its auto-promotion leaves alone what was demoted before. -/
theorem Marked.query (hpolicy : cfg.demotionTarget = .oneStepThenDrop) {q : ContextQuery} (hop : ev.op = .query q)
    (hclean : ev.Clean) (h : Marked D (w.prepare ev).session) (hkeep : ∀ id ∈ D, id ∉ w.promotableAt P cfg ev) :
    Marked D (w.step P cfg ev).session := by
  have hspec : Runs Later (ev.op.exec P cfg) (w.prepare ev) (fun _ w' => ∃ r, Answers P cfg q r (w.prepare ev) w')
      (Halts P cfg (.query q) (w.prepare ev)) := by
    rw [hop]
    exact Runs.map (query_spec.mono (fun r _ _ h => ⟨r, h⟩) fun _ _ _ h => h)
  refine hspec.final (C := fun w' => Marked D w'.session) ?_ ?_
  · rintro _ w' - ⟨r, pattern, now, hpattern, rfl, -, -, -, -, hrest⟩
    have hanswered : Marked D ((w.prepare ev).session.answered cfg (w.prepare ev).reading _) :=
      h.answered (w.prepare ev).reading (((w.prepare ev).session.hits P q pattern).map (·.1))
    cases hcadence : cfg.promotion.cadence with
    | never =>
        rw [hcadence] at hrest
        exact hrest.2 ▸ hanswered
    | afterEachQuery =>
        rw [hcadence] at hrest
        refine (hanswered.autoPromoted fun id hid hmem => ?_).sweep hpolicy hrest.2
        rw [log_answered] at hmem
        have hD : id ∈ D := by simpa [World.prepare, demotions] using hmem
        refine hkeep id hD ?_
        unfold World.promotableAt
        rw [hop, hcadence]
        simp only [hpattern]
        exact hid
  · rintro halt w' - hhalts
    cases hhalts with
    | refused he hsame => exact hsame ▸ h
    | overflow hop' hfull hsame => exact hsame ▸ h
    | failed hunclean hbegin hends => exact (hunclean hclean).elim

/-- The invariant along a sequence of queries. -/
theorem marked_run (hpolicy : cfg.demotionTarget = .oneStepThenDrop) (hqueries : ∀ ev ∈ evs, ∃ q, ev.op = .query q)
    (hclean : ∀ ev ∈ evs, ev.Clean) (hD : D.Nodup)
    (hmarks : ∀ id ∈ D, ∀ e : Entry, w.session.state.items[id]? = some e → e.arrival = .demoted)
    (hkeep : ∀ before ev after, evs = before ++ ev :: after → ∀ id ∈ D ++ w.demotedBy P cfg before,
      id ∉ (w.run P cfg before).promotableAt P cfg ev) :
    (D ++ w.demotedBy P cfg evs).Nodup ∧ ∀ id ∈ D ++ w.demotedBy P cfg evs, ∀ e : Entry,
      (w.run P cfg evs).session.state.items[id]? = some e → e.arrival = .demoted := by
  induction evs generalizing w D with
  | nil => simpa [World.demotedBy] using ⟨hD, hmarks⟩
  | cons ev evs ih =>
      obtain ⟨q, hop⟩ := hqueries ev (by simp)
      have hprep : Marked D (w.prepare ev).session := by
        refine ⟨?_, ?_⟩ <;> simpa [World.prepare, demotions]
      have hstep : Marked D (w.step P cfg ev).session :=
        hprep.query hpolicy hop (hclean ev (by simp)) fun id hid =>
          hkeep [] ev evs rfl id (by simpa [World.demotedBy] using hid)
      rw [World.demotedBy, World.run_cons, ← List.append_assoc]
      refine ih (fun ev' h' => hqueries ev' (by simp [h'])) (fun ev' h' => hclean ev' (by simp [h'])) hstep.nodup
        hstep.marks fun before ev' after hsplit id hid => ?_
      refine hkeep (ev :: before) ev' after (by rw [hsplit]; rfl) id ?_
      rwa [World.demotedBy, ← List.append_assoc]

/-- Under `OneStepThenDrop`, in a sequence of queries without storage failures none of which auto-promotes an item that
an earlier one demoted: no item is demoted twice, and at every point an item demoted before is one that the next
eviction drops. -/
theorem demoted_at_most_once (P : Platform) (cfg : Settings) (w : World) (evs : List Event)
    (hpolicy : cfg.demotionTarget = .oneStepThenDrop) (hqueries : ∀ ev ∈ evs, ∃ q, ev.op = .query q)
    (hclean : ∀ ev ∈ evs, ev.Clean)
    (hkeep : ∀ before ev after, evs = before ++ ev :: after → ∀ id ∈ w.demotedBy P cfg before,
      id ∉ (w.run P cfg before).promotableAt P cfg ev) :
    (w.demotedBy P cfg evs).Nodup ∧
      ∀ before after, evs = before ++ after → ∀ id ∈ w.demotedBy P cfg before, ∀ e : Entry,
        (w.run P cfg before).session.state.items[id]? = some e → ∀ scope, evictionTarget cfg scope e.arrival = none := by
  have hrun : ∀ before after, evs = before ++ after → (w.demotedBy P cfg before).Nodup ∧
      ∀ id ∈ w.demotedBy P cfg before, ∀ e : Entry, (w.run P cfg before).session.state.items[id]? = some e →
        e.arrival = .demoted := by
    intro before after hsplit
    refine marked_run (D := []) hpolicy (fun ev h => hqueries ev (by simp [hsplit, h]))
      (fun ev h => hclean ev (by simp [hsplit, h])) List.nodup_nil (fun id hid => absurd hid List.not_mem_nil) ?_
    intro pre ev post hpre id hid
    exact hkeep pre ev (post ++ after) (by rw [hsplit, hpre]; simp) id (by simpa using hid)
  refine ⟨(hrun evs [] (by simp)).1, fun before after hsplit id hid e he scope => ?_⟩
  have harrival := (hrun before after hsplit).2 id hid e he
  unfold evictionTarget
  rw [hpolicy, harrival]

/-- One access promotes to major, and major takes no item. -/
def narrow : Settings :=
  { bounds := ⟨none, some 0, none⟩, evictionPolicy := .lru, demotionTarget := .oneStepThenDrop,
    promotion := { PromotionConfig.default with minorToMajorAccesses := 0 } }

def nothing : ContextQuery := { everything with kind := .pattern ⟨some (.named ⟨"urn:nothing"⟩), none, none⟩ }

/-- A query demotes the fact it promoted, and the next one does not return it. -/
theorem demoted_at_most_once_two_queries :
    let w := World.start.run factPlatform narrow [⟨.add .minor fact, [], []⟩]
    let evs : List Event := [⟨.query everything, [], [1]⟩, ⟨.query nothing, [], [1]⟩]
    w.demotedBy factPlatform narrow evs = [⟨0⟩] ∧ (w.demotedBy factPlatform narrow evs).Nodup := by
  intro w evs
  have hsecond : (w.run factPlatform narrow [⟨.query everything, [], [1]⟩]).promotableAt factPlatform narrow
      ⟨.query nothing, [], [1]⟩ = [] := by decide +kernel
  refine ⟨by decide +kernel, (demoted_at_most_once factPlatform narrow w evs rfl (by simp [evs]) (by simp [evs, Event.Clean])
    fun before ev after hsplit id hid => ?_).1⟩
  cases before with
  | nil => exact absurd hid List.not_mem_nil
  | cons first before =>
      obtain ⟨rfl, hrest⟩ := List.cons.inj hsplit
      cases before with
      | nil =>
          obtain ⟨rfl, -⟩ := List.cons.inj hrest
          exact hsecond ▸ List.not_mem_nil
      | cons second before =>
          have hlength := congrArg List.length hrest
          simp at hlength

/-- Each of two queries promotes the fact to major and demotes it again. -/
theorem demoted_by_every_query :
    let w := World.start.run factPlatform narrow [⟨.add .minor fact, [], []⟩]
    let evs : List Event := [⟨.query everything, [], [1]⟩, ⟨.query everything, [], [1]⟩]
    (∀ ev ∈ evs, ev.Clean) ∧ w.demotedBy factPlatform narrow evs = [⟨0⟩, ⟨0⟩] ∧
      ¬ (w.demotedBy factPlatform narrow evs).Nodup := by
  intro w evs
  have htwice : w.demotedBy factPlatform narrow evs = [⟨0⟩, ⟨0⟩] := by decide +kernel
  exact ⟨by simp [evs, Event.Clean], htwice, by rw [htwice]; decide⟩

end Semanticore.Context
