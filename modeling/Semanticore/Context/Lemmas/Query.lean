import Semanticore.Context.Lemmas.Operations

/-!
# What a query does

The quads of a consulted scope, read through the index; the accesses; and auto-promotion.
-/

namespace Semanticore.Context
open Semanticore.Core Semanticore.Lib

variable {P : Platform} {cfg : Settings} {w w' : World} {σ : Session} {st : State} {scope : ContextScope} {id : ItemId}

/-! ## Matching quads -/

/-- The live item of `scope` in whose graph a quad is. -/
def ownerIn (st : State) (scope : ContextScope) (q : Quad) : Option ItemId :=
  match q.graph with
  | .default => none
  | .named g => (parseItemGraph g).filter fun id => st.scopeOf id = some scope

theorem ownerIn_eq_some {q : Quad} :
    ownerIn st scope q = some id ↔ q.graph = .named (itemGraph id) ∧ st.scopeOf id = some scope := by
  unfold ownerIn
  cases q.graph with
  | default => simp
  | named g => simp [Option.filter_eq_some_iff, parseItemGraph_eq_some]

theorem matchedItems_eq (quads : List Quad) : matchedItems st scope quads =
    quads.foldl (fun acc q => match ownerIn st scope q with
      | none => acc
      | some id => (acc.1 + 1, acc.2.insert id)) (0, ∅) := by
  unfold matchedItems
  congr 1
  funext acc q
  unfold ownerIn
  cases q.graph with
  | default => rfl
  | named g =>
      cases hparse : parseItemGraph g with
      | none => simp [hparse]
      | some id => by_cases hs : st.scopeOf id = some scope <;> simp [hparse, hs, Option.filter]

/-- The count is the number of quads of live items, the set holds the items. -/
theorem matchedItems_spec (quads : List Quad) :
    (matchedItems st scope quads).1 = (quads.filterMap (ownerIn st scope)).length ∧
      ∀ id, id ∈ (matchedItems st scope quads).2 ↔ id ∈ quads.filterMap (ownerIn st scope) := by
  rw [matchedItems_eq]
  suffices h : ∀ acc : Nat × Std.TreeSet ItemId,
      let found := quads.foldl (fun acc q => match ownerIn st scope q with
        | none => acc
        | some id => (acc.1 + 1, acc.2.insert id)) acc
      found.1 = acc.1 + (quads.filterMap (ownerIn st scope)).length ∧
        ∀ id, id ∈ found.2 ↔ id ∈ acc.2 ∨ id ∈ quads.filterMap (ownerIn st scope) by
    obtain ⟨hcount, hmem⟩ := h (0, ∅)
    exact ⟨by rw [hcount, Nat.zero_add], fun id => by rw [hmem]; simp⟩
  induction quads with
  | nil => exact fun acc => ⟨rfl, fun id => by simp⟩
  | cons q quads ih =>
      intro acc
      cases howner : ownerIn st scope q with
      | none =>
          simp only [List.foldl_cons, List.filterMap_cons, howner]
          exact ih acc
      | some id' =>
          simp only [List.foldl_cons, List.filterMap_cons, howner]
          obtain ⟨hcount, hmem⟩ := ih (acc.1 + 1, acc.2.insert id')
          refine ⟨by rw [hcount, List.length_cons]; omega, fun id => ?_⟩
          rw [hmem, Std.TreeSet.mem_insert, compare_eq_iff_eq, List.mem_cons]
          constructor
          · rintro ((rfl | h) | h)
            · exact Or.inr (Or.inl rfl)
            · exact Or.inl h
            · exact Or.inr (Or.inr h)
          · rintro (h | rfl | h)
            · exact Or.inl (Or.inr h)
            · exact Or.inl (Or.inl rfl)
            · exact Or.inr h

/-! ## Selected scopes -/

theorem foldl_eraseDups {α : Type} [DecidableEq α] (l acc : List α) :
    l.foldl (fun out a => if a ∈ out then out else out ++ [a]) acc = acc ++ (l.filter (· ∉ acc)).eraseDups := by
  induction l generalizing acc with
  | nil => simp
  | cons a l ih =>
      rw [List.foldl_cons, ih]
      by_cases ha : a ∈ acc
      · simp [ha]
      · have hfilter : (l.filter (· ∉ acc ++ [a])) = (l.filter (· ∉ acc)).filter fun b => !b == a := by
          rw [List.filter_filter]
          congr 1
          funext b
          by_cases hb : b = a <;> simp [hb]
        rw [if_neg ha, hfilter, List.filter_cons_of_pos (by simpa using ha), List.eraseDups_cons, List.append_assoc]
        rfl

theorem scopes_eq (sel : ScopeSelection) : sel.scopes = sel.listed.eraseDups := by
  simp [ScopeSelection.scopes, foldl_eraseDups]

/-! ## Consulting scopes -/

namespace Session

/-- The quads of a scope's store that match the pattern. -/
def matching (P : Platform) (σ : Session) (pattern : QuadPattern) (scope : ContextScope) : List Quad :=
  P.quadsForPattern (σ.stores.get scope) pattern.subject pattern.predicate pattern.object none

/-- What one scope contributes to an answer. -/
def consulted (P : Platform) (σ : Session) (pattern : QuadPattern) (scope : ContextScope) :
    Nat × List (ItemId × ContextScope) :=
  let found := matchedItems σ.state scope (σ.matching P pattern scope)
  (found.1, found.2.toList.map fun id => (id, scope))

/-- The hits of a query, cut to its limit. -/
def hits (P : Platform) (σ : Session) (q : ContextQuery) (pattern : QuadPattern) : List (ItemId × ContextScope) :=
  applyLimit q.limit ((q.scopes.scopes.map (σ.consulted P pattern)).flatMap (·.2))

end Session

theorem consult_spec {pattern : QuadPattern} : Runs Later (consult P pattern scope) w
    (fun r w' => r = w.session.consulted P pattern scope ∧ w'.session = w.session) (Fails w (· = w.session)) := by
  unfold consult
  refine transaction_spec.bind fun _ w' _ hw' => ?_
  apply runs_getSession
  refine Runs.ret ⟨?_, hw'⟩
  rw [hw']
  rfl

theorem consulted_spec {pattern : QuadPattern} {scopes : List ContextScope} :
    Runs Later (scopes.mapM (consult P pattern)) w
      (fun rs w' => rs = scopes.map (w.session.consulted P pattern) ∧ w'.session = w.session)
      (Fails w (· = w.session)) := by
  have hloop : Runs Later (scopes.mapM (consult P pattern)) w
      (fun rs w' => List.Forall₂ (fun scope r => r = w.session.consulted P pattern scope) scopes rs ∧
        Later w w' ∧ w'.session = w.session) (Fails w (· = w.session)) := by
    refine Runs.mapM (I := fun _ w' => Later w w' ∧ w'.session = w.session) ?_ ⟨Std.Refl.refl w, rfl⟩
    rintro scope rest w₁ ⟨hR, hσ⟩
    refine consult_spec.mono (fun r w₂ hR₂ h => ⟨hσ ▸ h.1, Trans.trans hR hR₂, h.2.trans hσ⟩) fun h w₂ _ hh => ?_
    exact hh.from hR fun τ hτ => hτ.trans hσ
  refine hloop.mono (fun rs w' _ h => ⟨?_, h.2.2⟩) fun _ _ _ h => h
  have heq : List.Forall₂ (· = ·) (scopes.map (w.session.consulted P pattern)) rs :=
    List.forall₂_map_left_iff.mpr (h.1.imp fun _ _ h => h.symm)
  rw [List.forall₂_eq_eq_eq] at heq
  exact heq.symm

/-- Consulting reads no clock. -/
theorem consulted_clock {pattern : QuadPattern} {scopes : List ContextScope} :
    Runs SameClock (scopes.mapM (consult P pattern)) w (fun _ _ => True) fun _ _ => True := by
  refine (Runs.mapM (I := fun _ _ => True) (C := fun _ _ => True) (fun scope rest w' _ => ?_) trivial).mono
    (fun _ _ _ _ => trivial) fun _ _ _ h => h
  unfold consult
  refine (transaction_clock (Q := fun _ _ => True) (fun _ => trivial) fun _ _ => trivial).bind fun _ w₁ _ _ => ?_
  exact runs_getSession (Runs.ret ⟨trivial, trivial⟩)

theorem applyLimit_sublist {α : Type} (limit : Option Nat) (l : List α) : (applyLimit limit l).Sublist l := by
  cases limit with
  | none => exact List.Sublist.refl l
  | some n => exact List.take_sublist n l

theorem mem_consulted {pattern : QuadPattern} {hit : ItemId × ContextScope} (h : hit ∈ (σ.consulted P pattern scope).2) :
    hit.2 = scope ∧ σ.state.scopeOf hit.1 = some scope := by
  simp only [Session.consulted, List.mem_map, Std.TreeSet.mem_toList] at h
  obtain ⟨id, hid, rfl⟩ := h
  obtain ⟨q', _, howner⟩ := List.mem_filterMap.mp (((matchedItems_spec _).2 id).mp hid)
  exact ⟨rfl, (ownerIn_eq_some.mp howner).2⟩

/-- Every hit is a live item of the scope it was found in. -/
theorem scopeOf_of_mem_hits {q : ContextQuery} {pattern : QuadPattern} {hit : ItemId × ContextScope}
    (h : hit ∈ σ.hits P q pattern) : σ.state.scopeOf hit.1 = some hit.2 := by
  have hmem := (applyLimit_sublist _ _).subset h
  simp only [List.mem_flatMap, List.mem_map] at hmem
  obtain ⟨_, ⟨scope, _, rfl⟩, hhit⟩ := hmem
  obtain ⟨rfl, hscope⟩ := mem_consulted hhit
  exact hscope

/-- A query returns an item once. -/
theorem hits_nodup (σ : Session) (q : ContextQuery) (pattern : QuadPattern) :
    ((σ.hits P q pattern).map (·.1)).Nodup := by
  unfold Session.hits
  refine List.Nodup.sublist ((applyLimit_sublist _ _).map _) ?_
  rw [List.flatMap_map, List.map_flatMap, List.nodup_flatMap]
  constructor
  · intro s _
    have hids : ((σ.consulted P pattern s).2.map (·.1)) = (matchedItems σ.state s (σ.matching P pattern s)).2.toList := by
      simp [Session.consulted, Function.comp_def]
    rw [hids]
    exact Std.TreeSet.ordered_toList.imp fun h => (compare_lt_iff_lt.mp h).ne
  · rw [scopes_eq]
    refine (nodup_eraseDups q.scopes.listed).imp fun hne id hid hid' => hne ?_
    obtain ⟨hit, hhit, rfl⟩ := List.mem_map.mp hid
    obtain ⟨hit', hhit', heq⟩ := List.mem_map.mp hid'
    have hscope' := (mem_consulted hhit').2
    rw [heq] at hscope'
    exact Option.some.inj ((mem_consulted hhit).2.symm.trans hscope')

/-! ## Accesses -/

/-- A result is the item of a hit as the index holds it. -/
def RankedAs (σ : Session) (hit : ItemId × ContextScope) (r : RankedItem) : Prop :=
  ∃ e, σ.state.items[hit.1]? = some e ∧ r = { id := hit.1, item := e.item, score := 1.0, sourceScope := hit.2 }

theorem access_spec {now : Instant} {hit : ItemId × ContextScope} {e : Entry} {E : Halt → World → Prop}
    (he : w.session.state.items[hit.1]? = some e) : Runs Later (access cfg now hit) w
      (fun r w' => r = { id := hit.1, item := e.item, score := 1.0, sourceScope := hit.2 } ∧
        w'.session = w.session.access cfg now hit.1) E := by
  unfold access
  apply runs_getState
  simp only [he]
  apply runs_modifySession
  refine Runs.ret ⟨rfl, ?_⟩
  rw [Session.access_of_live he]
  rfl

theorem accesses_spec {now : Instant} {hits : List (ItemId × ContextScope)} {E : Halt → World → Prop}
    (hlive : ∀ hit ∈ hits, ∃ e, w.session.state.items[hit.1]? = some e) :
    Runs Later (hits.mapM (access cfg now)) w
      (fun items w' => List.Forall₂ (RankedAs w.session) hits items ∧
        w'.session = (hits.map (·.1)).foldl (Session.access cfg now) w.session) E := by
  -- Invariant: every id still stands for the item it stood for at the start.
  let I (rest : List (ItemId × ContextScope)) (w' : World) : Prop := (∀ hit ∈ rest, hit ∈ hits) ∧
    (∀ id, w'.session.state.place id = w.session.state.place id) ∧
    (rest.map (·.1)).foldl (Session.access cfg now) w'.session =
      (hits.map (·.1)).foldl (Session.access cfg now) w.session
  have hloop : Runs Later (hits.mapM (access cfg now)) w
      (fun items w' => List.Forall₂ (RankedAs w.session) hits items ∧ I [] w') E := by
    refine Runs.mapM (I := I) ?_ ⟨fun _ h => h, fun _ => rfl, rfl⟩
    rintro hit rest w₁ ⟨hsub, hsame, hfold⟩
    obtain ⟨e, he⟩ := hlive hit (hsub hit (by simp))
    have hplace : w₁.session.state.place hit.1 = some (e.item, e.scope) := by
      rw [hsame, State.place, he]
      rfl
    obtain ⟨e₁, he₁, heq⟩ := Option.map_eq_some_iff.mp hplace
    refine (access_spec he₁).mono (fun r w₂ _ h => ?_) fun _ _ _ h => h
    refine ⟨⟨e, he, ?_⟩, fun hit' hmem => hsub hit' (by simp [hmem]), fun id => ?_, ?_⟩
    · rw [h.1, (Prod.mk.inj heq).1]
    · rw [h.2, Session.place_access, hsame]
    · rw [h.2]
      exact hfold
  exact hloop.mono (fun _ _ _ h => ⟨h.1, h.2.2.2⟩) fun _ _ _ h => h

/-- `query` up to auto-promotion. -/
theorem answer_spec {q : ContextQuery} : Runs Later (answer P cfg q) w
    (fun r w' => ∃ pattern, queryPattern q = .ok pattern ∧ r.1 = w.reading ∧ r.1 ≤ w'.now ∧
      r.2.1 = ((q.scopes.scopes.map (w.session.consulted P pattern)).map (·.1)).sum ∧
      List.Forall₂ (RankedAs w.session) (w.session.hits P q pattern) r.2.2 ∧
      w'.session = w.session.answered cfg r.1 ((w.session.hits P q pattern).map (·.1)))
    (Halts P cfg (.query q) w) := by
  unfold answer
  refine (liftExcept_spec.mono (fun _ _ _ h => h) fun h w' _ hh => ?_).bind fun pattern w₀ _ h₀ => ?_
  · obtain ⟨rfl, e, rfl, he⟩ := hh
    exact .refused (queryPattern_error he) rfl
  obtain ⟨rfl, hpattern⟩ := h₀
  refine ((consulted_spec.and consulted_clock).mono (fun _ _ _ h => h) fun h w' hR hh => ?_).bind
    fun rs w₁ hR₁ h₁ => ?_
  · exact hh.1.halts (Std.Refl.refl _) .nothing (fun _ => Ends.of_eq) hR
  obtain ⟨⟨rfl, hσ₁⟩, hclock, -⟩ := h₁
  refine instantNow_spec.bind fun now w₂ hR₂ h₂ => ?_
  obtain ⟨hσ₂, hreading, hnow⟩ := h₂
  have hσ : w₂.session = w₀.session := hσ₂.trans hσ₁
  have hlive : ∀ hit ∈ w₀.session.hits P q pattern, ∃ e, w₂.session.state.items[hit.1]? = some e := by
    intro hit hhit
    obtain ⟨e, he, -⟩ := State.scopeOf_eq_some.mp (scopeOf_of_mem_hits hhit)
    exact ⟨e, hσ ▸ he⟩
  refine (accesses_spec hlive).bind fun items w₃ hR₃ h₃ => ?_
  apply runs_modifySession
  refine Runs.ret ⟨pattern, hpattern, hreading.trans hclock.reading, hnow ▸ hR₃.2, rfl, hσ ▸ h₃.1, ?_⟩
  simp only [h₃.2, hσ]
  rfl

/-! ## Auto-promotion -/

theorem mem_promotable {st : State} {now : Instant} {target : ContextScope} : id ∈ promotable cfg st now target ↔
    ∃ e, st.items[id]? = some e ∧ promotionTarget cfg (referenceCounts st.items) now id e = some target := by
  simp only [promotable, List.mem_map, List.mem_filter, decide_eq_true_eq, Prod.exists, mem_toList]
  constructor
  · rintro ⟨_, e, h, rfl⟩
    exact ⟨e, h⟩
  · rintro ⟨e, h⟩
    exact ⟨id, e, h, rfl⟩

theorem promotable_nodup (st : State) (now : Instant) (target : ContextScope) :
    (promotable cfg st now target).Nodup :=
  (List.pairwise_map.mpr ((toList_sorted st.items).imp fun h => h.ne)).sublist (List.filter_sublist.map _)

/-- An item is promoted to one tier. -/
theorem promotable_disjoint {st : State} {now : Instant} {target target' : ContextScope} (hne : target ≠ target')
    (h : id ∈ promotable cfg st now target) : id ∉ promotable cfg st now target' := by
  intro h'
  obtain ⟨e, he, htarget⟩ := mem_promotable.mp h
  obtain ⟨e', he', htarget'⟩ := mem_promotable.mp h'
  cases he.symm.trans he'
  exact hne (Option.some.inj (htarget.symm.trans htarget'))

/-- The rules move an item one tier up. -/
theorem promotionTarget_colder {refs : Std.TreeMap ItemId Nat} {now : Instant} {e : Entry} {target : ContextScope}
    (h : promotionTarget cfg refs now id e = some target) : target.colder = some e.scope := by
  unfold promotionTarget at h
  split at h
  · rename_i hs
    split at h <;> cases h
    rw [hs]; rfl
  · rename_i hs
    split at h <;> cases h
    rw [hs]; rfl
  · cases h

namespace Session

/-- The scopes whose bounds auto-promotion enforces. -/
def promotedInto (cfg : Settings) (σ : Session) (now : Instant) : List ContextScope :=
  if promotable cfg σ.state now .enduring ≠ [] then ContextScope.enduring.andColder
  else if promotable cfg σ.state now .major ≠ [] then ContextScope.major.andColder
  else []

/-- The number of items auto-promotion moves. -/
def promotedCount (cfg : Settings) (σ : Session) (now : Instant) : Nat :=
  (promotable cfg σ.state now .enduring).length + (promotable cfg σ.state now .major).length

/-- The moves of auto-promotion. -/
def autoPromoted (P : Platform) (cfg : Settings) (σ : Session) (now : Instant) : Session :=
  ((σ.moveItems P (promotable cfg σ.state now .enduring) .enduring .promoted).moveItems P
    (promotable cfg σ.state now .major) .major .promoted).counted 0 (σ.promotedCount cfg now) 0

end Session

theorem movable_promotable (σ : Session) (now : Instant) (target : ContextScope) :
    Movable target (promotable cfg σ.state now target) σ := by
  refine ⟨promotable_nodup _ _ _, fun id hid => ?_⟩
  obtain ⟨e, he, htarget⟩ := mem_promotable.mp hid
  exact ⟨e, he, (ContextScope.colder_lt (promotionTarget_colder htarget)).ne'⟩

/-- What auto-promotion is to move to major can still be moved after it moved items to enduring. -/
theorem movable_major (σ : Session) (now : Instant) : Movable .major (promotable cfg σ.state now .major)
    (σ.moveItems P (promotable cfg σ.state now .enduring) .enduring .promoted) := by
  refine ⟨promotable_nodup _ _ _, fun id hM => ?_⟩
  have hnot : id ∉ promotable cfg σ.state now .enduring := promotable_disjoint (by decide) hM
  rw [Session.items_moveItems (promotable_nodup _ _ _), if_neg hnot]
  exact (movable_promotable σ now .major).2 id hM

theorem autoPromote_spec {now : Instant} : Runs Later (autoPromote P cfg now) w
    (fun n w' => n = w.session.promotedCount cfg now ∧
      Sweep P cfg (w.session.promotedInto cfg now) (w.session.autoPromoted P cfg now) w'.session ∧
      Trail P cfg w.session w'.session)
    (Fails w (Ends P cfg w.session)) := by
  unfold autoPromote
  apply runs_getState
  refine (moveItems_spec P cfg (movable_promotable w.session now .enduring)).bind fun _ w₁ hR₁ h₁ => ?_
  have hmovable : Movable .major (promotable cfg w.session.state now .major) w₁.session :=
    h₁.1 ▸ movable_major w.session now
  refine ((moveItems_spec P cfg hmovable).mono (fun _ _ _ h => h) fun _ _ _ h =>
    h.from hR₁ fun _ => h₁.2.then_ends).bind fun _ w₂ hR₂ h₂ => ?_
  apply runs_modifySession
  have hcount : Trail P cfg w.session (w.session.autoPromoted P cfg now) :=
    h₁.2.trans (h₂.2.trans (h₂.1 ▸ h₁.1 ▸ (Act.counted _ _).trail))
  have hR : Later w { w₂ with session := w.session.autoPromoted P cfg now } :=
    show Later w w₂ from Trans.trans hR₁ hR₂
  have hsession : w₂.session.mapState (fun st => { st with stats := { st.stats with
      itemsPromoted := st.stats.itemsPromoted + w.session.promotedCount cfg now } }) =
      w.session.autoPromoted P cfg now := by
    rw [h₂.1, h₁.1]; rfl
  have hbounds (scopes : List ContextScope) : Runs Later (scopes.forM (enforceTier P cfg) >>= fun _ =>
      pure (w.session.promotedCount cfg now)) { w₂ with session := w.session.autoPromoted P cfg now }
      (fun n w' => n = w.session.promotedCount cfg now ∧
        Sweep P cfg scopes (w.session.autoPromoted P cfg now) w'.session ∧ Trail P cfg w.session w'.session)
      (Fails w (Ends P cfg w.session)) := by
    refine ((sweep_spec P cfg _ scopes).mono (fun _ _ _ h => h) fun _ _ _ h =>
      h.from hR fun _ => hcount.then_ends).bind fun _ w₃ _ h₃ => ?_
    exact Runs.ret ⟨rfl, h₃.1, hcount.trans h₃.2⟩
  have hstart := hbounds (w.session.promotedInto cfg now)
  unfold Session.promotedInto at hstart ⊢
  rw [← hsession] at hstart ⊢
  split_ifs at hstart ⊢ <;> exact hstart

/-- What a query that returned did: it answered, counted its hits as accesses, and promoted if it is set to. -/
def Answers (P : Platform) (cfg : Settings) (q : ContextQuery) (r : ContextQueryResult) (w w' : World) : Prop :=
  ∃ pattern now, queryPattern q = .ok pattern ∧ now = w.reading ∧ now ≤ w'.now ∧
    r.queryStats.quadsMatched = ((q.scopes.scopes.map (w.session.consulted P pattern)).map (·.1)).sum ∧
    List.Forall₂ (RankedAs w.session) (w.session.hits P q pattern) r.items ∧
    let τ := w.session.answered cfg now ((w.session.hits P q pattern).map (·.1))
    Trail P cfg τ w'.session ∧
    match cfg.promotion.cadence with
    | .afterEachQuery => r.queryStats.autoPromoted = τ.promotedCount cfg now ∧
        Sweep P cfg (τ.promotedInto cfg now) (τ.autoPromoted P cfg now) w'.session
    | .never => r.queryStats.autoPromoted = 0 ∧ w'.session = τ

/-- `query`. -/
theorem query_spec {q : ContextQuery} : Runs Later (query P cfg q) w (fun r w' => Answers P cfg q r w w')
    (Halts P cfg (.query q) w) := by
  unfold query
  refine answer_spec.bind fun r w₁ hR₁ h₁ => ?_
  obtain ⟨now, quadsMatched, items⟩ := r
  obtain ⟨pattern, hpattern, hnow, hle', hmatched, hitems, hσ⟩ := h₁
  have hle : w.now ≤ now := w.now_le_reading.trans_eq hnow.symm
  have hbegin : Begins P cfg w.now w₁.now (.query q) w.session w₁.session := hσ ▸ .answered _ _ hle hle'
  cases hcadence : cfg.promotion.cadence with
  | afterEachQuery =>
      dsimp only
      refine ((autoPromote_spec (P := P)).mono (fun _ _ _ h => h) fun h w' hR hh => ?_).bind fun n w₂ hR₂ h₂ => ?_
      · exact hh.halts hR₁ hbegin (fun _ h => h) hR
      · refine Runs.ret ⟨pattern, now, hpattern, hnow, hle'.trans hR₂.2, hmatched, hitems, ?_⟩
        rw [← hσ, hcadence]
        exact ⟨h₂.2.2, h₂.1, h₂.2.1⟩
  | never =>
      dsimp only
      refine Runs.ret ⟨pattern, now, hpattern, hnow, hle', hmatched, hitems, ?_⟩
      rw [← hσ, hcadence]
      exact ⟨.refl, rfl, rfl⟩

end Semanticore.Context
