import Semanticore.Context.Coherence
import Semanticore.Context.Lemmas.Sweep

/-!
# What becomes of promoted items

`promote` enforces the bounds of the tier it moves items to, and of the colder ones in turn. An item it promoted can be
selected there: the first time it is demoted, the second time it is dropped.
-/

namespace Semanticore.Context
open Semanticore.Core Semanticore.Lib

/-- The victims that were selected in a scope, by the log. -/
def victimsIn (scope : ContextScope) (marks : List Mark) : List ItemId :=
  marks.flatMap fun
    | .commit .. => []
    | .selected _ s _ victims => if s = scope then victims else []
    | .moved .. => []
    | .dropped _ => []

variable {P : Platform} {cfg : Settings} {σ τ : Session} {id : ItemId} {ids : List ItemId} {e : Entry}
  {scope target s : ContextScope} {scopes : List ContextScope} {arrival : Arrival} {now : Instant}

/-! ## Selections in the log -/

@[simp] theorem victimsIn_append (marks marks' : List Mark) :
    victimsIn s (marks ++ marks') = victimsIn s marks ++ victimsIn s marks' := List.flatMap_append

theorem victimsIn_moved : victimsIn s (σ.moved P id e target arrival).log = victimsIn s σ.log := by
  simp only [Session.moved, Session.note, Session.mapState, Session.deleted, Session.copied, Session.commit,
    victimsIn_append]
  simp [victimsIn]

theorem victimsIn_dropped : victimsIn s (σ.dropped P id e).log = victimsIn s σ.log := by
  simp only [Session.dropped, Session.note, Session.mapState, Session.deleted, Session.commit, victimsIn_append]
  simp [victimsIn]

theorem victimsIn_moveItems (ids : List ItemId) : victimsIn s (σ.moveItems P ids target arrival).log = victimsIn s σ.log := by
  unfold Session.moveItems
  induction ids generalizing σ with
  | nil => rfl
  | cons id ids ih =>
      rw [List.foldl_cons, ih]
      unfold Session.moveItem
      split
      · rfl
      · exact victimsIn_moved

theorem victimsIn_evictVictims (ids : List ItemId) : victimsIn s (σ.evictVictims P cfg scope ids).log = victimsIn s σ.log := by
  unfold Session.evictVictims
  induction ids generalizing σ with
  | nil => rfl
  | cons id ids ih =>
      rw [List.foldl_cons, ih]
      unfold Session.evictVictim
      split
      · rfl
      · split
        · exact victimsIn_moved
        · exact victimsIn_dropped

/-- Enforcement selects in its own tier. -/
theorem victimsIn_enforceTier : victimsIn s (σ.enforceTier P cfg now scope).log =
    victimsIn s σ.log ++ if scope = s then σ.surplus cfg now scope else [] := by
  unfold Session.enforceTier Session.surplus
  split
  · rename_i hzero
    simp [hzero, chosenVictims]
  · rw [victimsIn_evictVictims]
    simp [Session.selected, Session.note, victimsIn]

theorem victimsIn_sweep (h : Sweep P cfg scopes σ τ) (hs : s ∉ scopes) : victimsIn s τ.log = victimsIn s σ.log := by
  induction h with
  | nil => rfl
  | @cons scope rest σ τ now h ih =>
      rw [List.mem_cons, not_or] at hs
      obtain ⟨hne, hrest⟩ := hs
      rw [ih hrest, victimsIn_enforceTier, if_neg (Ne.symm hne), List.append_nil]

/-- Only a bounded tier is selected from. -/
theorem bounded_of_victimsIn (h : Sweep P cfg scopes σ τ) (hlog : victimsIn s σ.log = []) (hs : victimsIn s τ.log ≠ []) :
    ∃ bound, cfg.bounds.get s = some bound := by
  induction h with
  | nil => exact (hs hlog).elim
  | @cons scope rest σ τ now h ih =>
      by_cases hσ : victimsIn s (σ.enforceTier P cfg now scope).log = []
      · exact ih hσ hs
      · rw [victimsIn_enforceTier, hlog, List.nil_append] at hσ
        split at hσ
        · rename_i heq
          subst heq
          cases hbound : cfg.bounds.get scope with
          | some bound => exact ⟨bound, rfl⟩
          | none => simp [Session.surplus, Session.excess, hbound, chosenVictims] at hσ
        · exact (hσ rfl).elim

/-! ## One item in a sweep -/

/-- A sweep leaves alone what is in none of its tiers. -/
theorem items_sweep (h : Sweep P cfg scopes σ τ) (hid : ∀ s ∈ scopes, σ.state.scopeOf id ≠ some s) :
    τ.state.items[id]? = σ.state.items[id]? := by
  induction h with
  | nil => rfl
  | @cons scope rest σ τ now h ih =>
      have hkept : (σ.enforceTier P cfg now scope).state.items[id]? = σ.state.items[id]? := by
        rw [items_enforceTier, if_neg]
        exact fun hmem => hid scope (by simp) (scopeOf_of_mem_surplus hmem)
      have hscope : (σ.enforceTier P cfg now scope).state.scopeOf id = σ.state.scopeOf id := by
        rw [State.scopeOf, hkept, State.scopeOf]
      rw [ih fun s hs => hscope ▸ hid s (by simp [hs]), hkept]

theorem evicted_promoted (hpolicy : cfg.demotionTarget = .oneStepThenDrop) (he : e.arrival = .promoted) :
    e.evicted cfg scope = scope.colder.map fun colder => e.arrive colder .demoted := by
  simp only [Entry.evicted, evictionTarget, hpolicy, he]

theorem evicted_demoted (hpolicy : cfg.demotionTarget = .oneStepThenDrop) (he : e.arrival = .demoted) :
    e.evicted cfg scope = none := by
  simp only [Entry.evicted, evictionTarget, hpolicy, he, Option.map_none]

/-- Where a sweep from the tier of a promoted item leaves it. -/
theorem scopeOf_sweep_promoted {colder : ContextScope} (hpolicy : cfg.demotionTarget = .oneStepThenDrop)
    (hcolder : scope.colder = some colder) (h : Sweep P cfg scope.andColder σ τ)
    (hlog : ∀ s, victimsIn s σ.log = []) (he : σ.state.items[id]? = some e) (hs : e.scope = scope)
    (harrival : e.arrival = .promoted) : τ.state.scopeOf id =
      if id ∉ victimsIn scope τ.log then some scope
      else if id ∉ victimsIn colder τ.log then some colder else none := by
  have hlt := ContextScope.colder_lt hcolder
  obtain ⟨rest, hrest⟩ : ∃ rest, colder.andColder = colder :: rest := by cases colder <;> exact ⟨_, rfl⟩
  have hnodup := ContextScope.andColder_nodup colder
  rw [hrest] at hnodup
  have hnot : colder ∉ rest := (List.nodup_cons.mp hnodup).1
  have hout : scope ∉ colder.andColder := fun hmem => absurd (ContextScope.mem_andColder.mp hmem) (not_le.mpr hlt)
  rw [ContextScope.andColder_of_some hcolder] at h
  obtain ⟨now, h⟩ := Sweep.cons_iff.mp h
  have hfirst : victimsIn scope τ.log = σ.surplus cfg now scope := by
    rw [victimsIn_sweep h hout, victimsIn_enforceTier, hlog, if_pos rfl, List.nil_append]
  have hσ₁ : (σ.enforceTier P cfg now scope).state.items[id]? = _ := items_enforceTier
  have hlog₁ : victimsIn colder (σ.enforceTier P cfg now scope).log = [] := by
    rw [victimsIn_enforceTier, hlog, if_neg hlt.ne', List.append_nil]
  generalize σ.enforceTier P cfg now scope = σ₁ at h hσ₁ hlog₁
  rw [hfirst]
  by_cases hmem : id ∈ σ.surplus cfg now scope
  · rw [if_pos hmem, he, Option.bind_some, evicted_promoted hpolicy harrival, hcolder] at hσ₁
    rw [if_neg (not_not.mpr hmem)]
    rw [hrest] at h
    obtain ⟨now', h⟩ := Sweep.cons_iff.mp h
    have hsecond : victimsIn colder τ.log = σ₁.surplus cfg now' colder := by
      rw [victimsIn_sweep h hnot, victimsIn_enforceTier, hlog₁, if_pos rfl, List.nil_append]
    have hσ₂ : (σ₁.enforceTier P cfg now' colder).state.items[id]? = _ := items_enforceTier
    rw [hσ₁, Option.map_some, Option.bind_some, evicted_demoted hpolicy rfl] at hσ₂
    have hlast : τ.state.items[id]? = (σ₁.enforceTier P cfg now' colder).state.items[id]? := by
      refine items_sweep h fun s hs => ?_
      rw [State.scopeOf, hσ₂]
      split
      · simp
      · simp only [Option.map_some, Entry.arrive_scope, ne_eq, Option.some.injEq]
        exact fun heq => hnot (heq ▸ hs)
    rw [hsecond, State.scopeOf, hlast, hσ₂]
    by_cases hmem' : id ∈ σ₁.surplus cfg now' colder
    · rw [if_pos hmem', if_neg (not_not.mpr hmem')]
      rfl
    · rw [if_neg hmem', if_pos hmem']
      rfl
  · rw [if_neg hmem, he] at hσ₁
    rw [if_pos hmem]
    have hlast : τ.state.items[id]? = σ₁.state.items[id]? := by
      refine items_sweep h fun s hs' => ?_
      rw [State.scopeOf, hσ₁, Option.map_some, hs]
      exact fun heq => hout (Option.some.inj heq ▸ hs')
    rw [State.scopeOf, hlast, hσ₁, Option.map_some, hs]

/-! ## Promoted items -/

/-- After a promotion that returned, each promoted item is in the target tier unless the call's enforcement selected it
there. If it did, the item is one tier colder, and it was dropped only if the enforcement selected it there too. What
is selected in a tier was selected because of the tier's bound. -/
theorem promoted_unless_selected (P : Platform) (cfg : Settings) (hpolicy : cfg.demotionTarget = .oneStepThenDrop)
    (w : World) (ev : Event) (ids : List ItemId) (source target : ContextScope) (n : Nat)
    (hop : ev.op = .promote ids source target) (hlt : source < target)
    (hok : (w.perform P cfg ev).1 = .ok (.promoted n)) :
    let τ := (w.step P cfg ev).session
    (∃ colder, target.colder = some colder ∧ ∀ id ∈ ids, τ.state.scopeOf id =
      if id ∉ victimsIn target τ.log then some target
      else if id ∉ victimsIn colder τ.log then some colder else none) ∧
    ∀ s, victimsIn s τ.log ≠ [] → ∃ bound, cfg.bounds.get s = some bound := by
  intro τ
  have hspec : Runs Later (promote P cfg ids source target) (w.prepare ev) _ (Halts P cfg ev.op (w.prepare ev)) :=
    promote_spec
  obtain ⟨-, hall, hmoved⟩ := perform_map (f := Reply.promoted) (fun _ _ h => Reply.promoted.inj h) (by rw [hop]; rfl)
    hspec hok
  rw [if_neg hlt.ne'] at hmoved
  obtain ⟨-, hsweep, -⟩ := hmoved
  have hnodup := nodup_eraseDups ids
  have hlog : ∀ s, victimsIn s (((w.prepare ev).session.moveItems P ids.eraseDups target .promoted).counted
      0 ids.eraseDups.length 0).log = [] := fun s => victimsIn_moveItems _
  refine ⟨?_, fun s hs => bounded_of_victimsIn hsweep (hlog s) hs⟩
  obtain ⟨colder, hcolder⟩ : ∃ colder, target.colder = some colder := by
    cases hcolder : target.colder with
    | none => exact (hlt.ne (ContextScope.eq_of_le_last hcolder hlt.le)).elim
    | some colder => exact ⟨colder, rfl⟩
  refine ⟨colder, hcolder, fun id hid => ?_⟩
  obtain ⟨e, he, -⟩ := State.scopeOf_eq_some.mp (hall id hid)
  have hentry : (((w.prepare ev).session.moveItems P ids.eraseDups target .promoted).counted
      0 ids.eraseDups.length 0).state.items[id]? = some (e.arrive target .promoted) := by
    show ((w.prepare ev).session.moveItems P ids.eraseDups target .promoted).state.items[id]? = _
    rw [Session.items_moveItems hnodup, if_pos (List.mem_eraseDups.mpr hid), he, Option.map_some]
  exact scopeOf_sweep_promoted hpolicy hcolder hsweep hlog hentry rfl rfl

/-- Room for one item in each of the two durable tiers. -/
def tight : Settings :=
  { bounds := ⟨some 1, some 1, none⟩, evictionPolicy := .lru, demotionTarget := .oneStepThenDrop,
    promotion := { PromotionConfig.default with cadence := .never } }

/-- Of an older item promoted to a full tier, the enforcement makes a victim once. -/
theorem promoted_unless_selected_full_tier :
    let evs : List Event := [⟨.add .minor note, [], []⟩, ⟨.add .enduring note, [], [1]⟩]
    let w := World.start.run notePlatform tight evs
    let τ := (w.step notePlatform tight ⟨.promote [⟨0⟩] .minor .enduring, [], []⟩).session
    victimsIn .enduring τ.log = [⟨0⟩] ∧ ∃ colder, ContextScope.enduring.colder = some colder ∧ ∀ id ∈ [⟨0⟩],
      τ.state.scopeOf id = if id ∉ victimsIn .enduring τ.log then some .enduring
        else if id ∉ victimsIn colder τ.log then some colder else none :=
  ⟨by decide +kernel, (promoted_unless_selected notePlatform tight rfl _ ⟨.promote [⟨0⟩] .minor .enduring, [], []⟩ [⟨0⟩]
    .minor .enduring 1 rfl (by decide) rfl).1⟩

/-- An older item promoted past a full tier to a full tier is lost. -/
theorem promoted_item_is_dropped :
    let evs : List Event := [⟨.add .minor note, [], []⟩, ⟨.add .major note, [], [1]⟩, ⟨.add .enduring note, [], [1]⟩]
    let w := World.start.run notePlatform tight evs
    let ev : Event := ⟨.promote [⟨0⟩] .minor .enduring, [], []⟩
    (w.perform notePlatform tight ev).1 = .ok (.promoted 1) ∧
      (w.step notePlatform tight ev).session.state.scopeOf ⟨0⟩ = none :=
  ⟨rfl, by decide +kernel⟩

end Semanticore.Context
