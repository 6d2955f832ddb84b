import Semanticore.Context.Coherence
import Semanticore.Context.Lemmas.Cascade
import Semanticore.Context.Lemmas.Frames
import Semanticore.Context.Lemmas.Tidy
import Semanticore.Context.Promotion

/-!
# Pressure on a tier

What is added to a tier, removed from it, evicted from it or promoted into it works on that tier and the colder ones, at
whatever point a transaction fails.
-/

namespace Semanticore.Context
open Semanticore.Core Semanticore.Lib

/-- The tier an operation puts pressure on. -/
def Op.presses : Op → Option ContextScope
  | .add scope _ => some scope
  | .addBatch scope _ => some scope
  | .remove scope _ => some scope
  | .evict scope _ => some scope
  | .promote _ _ target => some target
  | _ => none

/-- `R` allows what eviction from `s` and the colder tiers does: commits there, items that sink or go, counters and
marks. -/
structure Allows (s : ContextScope) (R : Session → Session → Prop) : Prop where
  commit : ∀ (σ : Session) {t : ContextScope} (after : Store), t ≤ s → R σ (σ.commit t after)
  same : ∀ {σ τ : Session}, τ.state.items = σ.state.items → τ.stores = σ.stores → R σ τ
  sinks : ∀ {σ τ : Session} {id : ItemId} {e : Entry} {target : ContextScope} {arrival : Arrival},
    σ.state.items[id]? = some e → e.scope ≤ s → target < e.scope →
      τ.state.items = σ.state.items.insert id (e.arrive target arrival) → τ.stores = σ.stores → R σ τ
  goes : ∀ {σ τ : Session} {id : ItemId} {e : Entry}, σ.state.items[id]? = some e → e.scope ≤ s →
    τ.state.items = σ.state.items.erase id → τ.stores = σ.stores → R σ τ

variable {P : Platform} {cfg : Settings} {σ τ ρ : Session} {w w₀ : World} {ev : Event} {op : Op} {id : ItemId}
  {ids : List ItemId} {e : Entry} {scope source target s : ContextScope} {scopes : List ContextScope} {arrival : Arrival}
  {items : List ContextItem} {criteria : EvictionCriteria}

/-! ## Programs under pressure -/

section
variable {R : Session → Session → Prop}

theorem Allows.counted (hR : Allows s R) (σ : Session) (promoted demoted : Nat) : R σ (σ.counted 0 promoted demoted) :=
  hR.same rfl rfl

variable [Std.Refl R] [IsTrans Session R]

namespace Allows

/-- A move to one of the tiers keeps what the new entry of the item keeps. -/
theorem moveItem_of (hR : Allows s R) (htarget : target ≤ s) (he : w.session.state.items[id]? = some e) (hs : e.scope ≤ s)
    (hindex : ∀ σ : Session, σ.state.items[id]? = some e →
      R σ (σ.mapState fun st => { st with items := st.items.insert id (e.arrive target arrival) })) :
    Keeps R (moveItem P id target arrival) w := by
  unfold moveItem
  apply runs_getState
  rw [he]
  refine Runs.bind (withWrite_frame fun σ after => hR.commit σ after htarget) fun _ w₁ _ h₁ => ?_
  refine Runs.bind (withWrite_frame fun σ after => hR.commit σ after hs) fun _ w₂ _ h₂ => ?_
  have hlive : w₂.session.state.items[id]? = some e := by rw [h₂, h₁]; exact he
  exact (keeps_modify (hindex w₂.session hlive)).bind fun _ _ => keeps_modify (hR.same rfl rfl)

theorem moveItem (hR : Allows s R) (he : w.session.state.items[id]? = some e) (hs : e.scope ≤ s) (hlt : target < e.scope) :
    Keeps R (moveItem P id target arrival) w :=
  hR.moveItem_of (hlt.le.trans hs) he hs fun _ hlive => hR.sinks hlive hs hlt rfl rfl

theorem dropItem (hR : Allows s R) (he : w.session.state.items[id]? = some e) (hs : e.scope ≤ s) :
    Keeps R (dropItem P id) w := by
  unfold Context.dropItem
  apply runs_getState
  rw [he]
  refine Runs.bind (withWrite_frame fun σ after => hR.commit σ after hs) fun _ w₁ _ h₁ => ?_
  have hlive : w₁.session.state.items[id]? = some e := by rw [h₁]; exact he
  exact (keeps_modify (hR.goes hlive hs rfl rfl)).bind fun _ _ => keeps_modify (hR.same rfl rfl)

theorem evictVictim (hR : Allows s R) (hle : scope ≤ s) (id : ItemId) (w : World) (e : Entry)
    (he : w.session.state.items[id]? = some e) (hs : e.scope = scope) : Keeps R (evictVictim P cfg scope id) w := by
  subst hs
  unfold Context.evictVictim
  apply runs_getState
  rw [he]
  dsimp only
  split
  · rename_i colder hcolder
    exact (hR.moveItem he hle (evictionTarget_lt hcolder)).bind fun _ _ => keeps_modify (hR.same rfl rfl)
  · exact hR.dropItem he hle

theorem sweep (hR : Allows s R) (hscopes : ∀ scope ∈ scopes, scope ≤ s) : Keeps R (scopes.forM (enforceTier P cfg)) w :=
  keeps_sweep (fun _ _ _ _ => hR.same rfl rfl) fun scope hscope => hR.evictVictim (hscopes scope hscope)

theorem enforceBounds (hR : Allows s R) (hle : scope ≤ s) : Keeps R (enforceBounds P cfg scope) w :=
  hR.sweep fun _ ht => (ContextScope.mem_andColder.mp ht).trans hle

theorem remove (hR : Allows s R) : Keeps R (remove P s id) w := by
  unfold Context.remove
  apply runs_getState
  by_cases hscope : w.session.state.scopeOf id = some s
  · obtain ⟨e, he, hs⟩ := State.scopeOf_eq_some.mp hscope
    simp only [hscope, ne_eq, not_true_eq_false, if_false]
    refine Runs.bind (withWrite_frame fun σ after => hR.commit σ after le_rfl) fun _ w₁ _ h₁ => ?_
    have hlive : w₁.session.state.items[id]? = some e := by rw [h₁]; exact he
    exact (keeps_modify (hR.goes hlive hs.le rfl rfl)).bind fun _ _ => keeps_ret
  · simp only [ne_eq, hscope, not_false_eq_true, if_true]
    exact keeps_ret

theorem evict (hR : Allows s R) : Keeps R (evict P cfg s criteria) w :=
  keeps_evict hR.counted (fun _ _ _ _ => hR.same rfl rfl) (fun _ _ _ he hs => hR.dropItem he hs.le)
    (fun _ hlt _ _ _ he hs => hR.moveItem he hs.le (hs ▸ hlt)) (hR.evictVictim le_rfl)
    fun _ hlt _ => hR.enforceBounds hlt.le

theorem addBatch (hR : Allows s R)
    (hadd : ∀ (σ : Session) nextId now, σ.state = w.session.state →
      w.session.state.nextId.toNat + items.length < 2 ^ 64 → R σ (σ.mapState (·.addBatch s (σ.batch items) nextId now))) :
    Keeps R (addBatch P cfg s items) w :=
  keeps_addBatch (fun σ after => hR.commit σ after le_rfl) hadd fun _ => hR.enforceBounds le_rfl

end Allows

/-- An operation keeps what its own first stage keeps and what eviction from its tier keeps. -/
theorem keeps_pressed (hR : Allows s R) (hop : op.presses = some s)
    (hadd : ∀ (items : List ContextItem) (σ : Session) nextId now, σ.state = w.session.state →
      w.session.state.nextId.toNat + items.length < 2 ^ 64 → R σ (σ.mapState (·.addBatch s (σ.batch items) nextId now)))
    (hpromote : ∀ ids source, op = .promote ids source s → Keeps R (promote P cfg ids source s) w) :
    Keeps R (op.exec P cfg) w := by
  cases op with
  | add scope item =>
      cases hop
      refine Keeps.map (Keeps.bind (hR.addBatch (hadd [item])) fun ids w' => ?_)
      cases ids with
      | nil => exact keeps_throw
      | cons id ids => exact keeps_ret
  | addBatch scope items =>
      cases hop
      exact Keeps.map (hR.addBatch (hadd items))
  | remove scope id =>
      cases hop
      exact Keeps.map hR.remove
  | evict scope criteria =>
      cases hop
      exact Keeps.map hR.evict
  | promote ids source target =>
      cases hop
      exact Keeps.map (hpromote ids source rfl)
  | query q => cases hop
  | reason scope => cases hop
  | validateShapes data shapes => cases hop
  | evaluateDatalog scope => cases hop

end

/-! ## Warmer tiers -/

/-- The stores and the entries of all tiers warmer than `s` are as they were. -/
structure Frame (s : ContextScope) (σ τ : Session) : Prop where
  stores : ∀ t, s < t → τ.stores.get t = σ.stores.get t
  entries : ∀ (id : ItemId) (e : Entry), s < e.scope → (τ.state.items[id]? = some e ↔ σ.state.items[id]? = some e)

instance : Std.Refl (Frame s) := ⟨fun _ => ⟨fun _ _ => rfl, fun _ _ _ => Iff.rfl⟩⟩

instance : IsTrans Session (Frame s) :=
  ⟨fun _ _ _ h h' => ⟨fun t ht => (h'.stores t ht).trans (h.stores t ht),
    fun id e he => (h'.entries id e he).trans (h.entries id e he)⟩⟩

/-- Items other than those that were and are in the tiers up to `s` have the same entries. -/
theorem frame_of_items (hstores : τ.stores = σ.stores)
    (h : ∀ id : ItemId, τ.state.items[id]? = σ.state.items[id]? ∨ (∀ e : Entry, σ.state.items[id]? = some e → e.scope ≤ s) ∧
      ∀ e : Entry, τ.state.items[id]? = some e → e.scope ≤ s) : Frame s σ τ := by
  refine ⟨fun t _ => by rw [hstores], fun id e hlt => ?_⟩
  rcases h id with hsame | ⟨hσ, hτ⟩
  · rw [hsame]
  · exact ⟨fun he => absurd hlt (hτ e he).not_gt, fun he => absurd hlt (hσ e he).not_gt⟩

theorem frame_insert {e' : Entry} (he : σ.state.items[id]? = some e) (hs : e.scope ≤ s) (hs' : e'.scope ≤ s)
    (hitems : τ.state.items = σ.state.items.insert id e') (hstores : τ.stores = σ.stores) : Frame s σ τ := by
  refine frame_of_items hstores fun id' => ?_
  rw [hitems, getElem?_insert]
  by_cases hid : id = id'
  · subst hid
    rw [if_pos rfl, he]
    exact Or.inr ⟨fun _ h => Option.some.inj h ▸ hs, fun _ h => Option.some.inj h ▸ hs'⟩
  · exact Or.inl (if_neg hid)

theorem frame_allows : Allows s (Frame s) where
  commit σ t after ht := ⟨fun t' ht' => by rw [Session.get_commit, if_neg (ht.trans_lt ht').ne], fun _ _ _ => Iff.rfl⟩
  same hitems hstores := frame_of_items hstores fun _ => Or.inl (by rw [hitems])
  sinks he hs hlt hitems hstores := frame_insert he hs (hlt.le.trans hs) hitems hstores
  goes {σ τ id e} he hs hitems hstores := by
    refine frame_of_items hstores fun id' => ?_
    rw [hitems, getElem?_erase]
    by_cases hid : id = id'
    · subst hid
      rw [if_pos rfl, he]
      exact Or.inr ⟨fun _ h => Option.some.inj h ▸ hs, fun _ h => by cases h⟩
    · exact Or.inl (if_neg hid)

/-- The ids of a batch are new: what is in the index of the new ids is what was added, the rest is as it was. -/
theorem items_batch (P : Platform) (htidy : Tidy w.now w.session.state) (hstate : σ.state = w.session.state)
    (hroom : w.session.state.nextId.toNat + items.length < 2 ^ 64) (nextId : UInt64) (now : Instant) (id : ItemId) :
    let τ := σ.mapState (·.addBatch s (σ.batch items) nextId now)
    τ.state.items[id]? = σ.state.items[id]? ∨
      w.session.state.nextId.toNat ≤ id.n.toNat ∧ σ.state.items[id]? = none ∧
        ∀ e : Entry, τ.state.items[id]? = some e → e.scope = s := by
  intro τ
  rw [← hstate] at htidy hroom ⊢
  have hitems : τ.state.items = (σ.added P s items now).state.items := rfl
  rw [hitems]
  by_cases hid : id ∈ (σ.batch items).map Prod.fst
  · obtain ⟨⟨id, item⟩, hp, rfl⟩ := List.mem_map.mp hid
    have hnew := (Session.mem_batch_ids hroom hp).1
    refine Or.inr ⟨hnew, ?_, fun e he => ?_⟩
    · cases hlive : σ.state.items[id]? with
      | none => rfl
      | some e => exact absurd (htidy.fresh id e hlive) (not_lt.mpr hnew)
    · rw [Session.items_added_of_mem hroom hp] at he
      cases he
      rfl
  · exact Or.inl (Session.items_added_of_not_mem hroom hid)

theorem frame_promote : Keeps (Frame s) (promote P cfg ids source s) w := by
  refine keeps_promote frame_allows.counted (fun hlt id w e he hs => ?_) fun _ => frame_allows.enforceBounds le_rfl
  have hle : e.scope ≤ s := hs.trans_le hlt.le
  exact frame_allows.moveItem_of le_rfl he hle fun _ hlive => frame_insert hlive hle le_rfl rfl rfl

/-- Whatever its result, an operation leaves the tiers warmer than its own as they were. -/
theorem frame_step (htidy : Tidy w.now w.session.state) (hop : ev.op.presses = some s) :
    Frame s (w.prepare ev).session (w.step P cfg ev).session := by
  have hkeeps : Keeps (Frame s) (ev.op.exec P cfg) (w.prepare ev) := by
    refine keeps_pressed frame_allows hop (fun items σ nextId now hstate hroom => ?_) fun _ _ _ => frame_promote
    refine frame_of_items rfl fun id => (items_batch P (w := w) htidy hstate hroom nextId now id).imp_right ?_
    rintro ⟨-, hnone, hscope⟩
    rw [hnone]
    exact ⟨fun e he => (Option.some_ne_none e he.symm).elim, fun e he => (hscope e he).le⟩
  exact hkeeps.step

/-! ## Sinking -/

/-- Every live item with an id below `n` was live, in the same tier or a warmer one. -/
def SinksBelow (n : Nat) (σ τ : Session) : Prop :=
  ∀ id t, id.n.toNat < n → τ.state.scopeOf id = some t → ∃ t₀, t ≤ t₀ ∧ σ.state.scopeOf id = some t₀

variable {n : Nat}

instance : Std.Refl (SinksBelow n) := ⟨fun _ _ t _ ht => ⟨t, le_rfl, ht⟩⟩

instance : IsTrans Session (SinksBelow n) where
  trans σ τ ρ h h' id t hid ht := by
    obtain ⟨t₁, hle₁, ht₁⟩ := h' id t hid ht
    obtain ⟨t₀, hle₀, ht₀⟩ := h id t₁ hid ht₁
    exact ⟨t₀, hle₁.trans hle₀, ht₀⟩

theorem sinksBelow_of_items (h : ∀ (id : ItemId) (e : Entry), id.n.toNat < n → τ.state.items[id]? = some e →
    ∃ e₀ : Entry, e.scope ≤ e₀.scope ∧ σ.state.items[id]? = some e₀) : SinksBelow n σ τ := by
  intro id t hid ht
  obtain ⟨e, he, rfl⟩ := State.scopeOf_eq_some.mp ht
  obtain ⟨e₀, hle, he₀⟩ := h id e hid he
  exact ⟨e₀.scope, hle, State.scopeOf_eq_some.mpr ⟨e₀, he₀, rfl⟩⟩

theorem sinksBelow_allows : Allows s (SinksBelow n) where
  commit σ t after ht := sinksBelow_of_items fun id e _ he => ⟨e, le_rfl, he⟩
  same hitems _ := sinksBelow_of_items fun id e _ he => ⟨e, le_rfl, hitems ▸ he⟩
  sinks {σ τ id e target arrival} he _ hlt hitems _ := by
    refine sinksBelow_of_items fun id' e' _ he' => ?_
    rw [hitems, getElem?_insert] at he'
    split at he'
    · rename_i hid
      cases he'
      exact ⟨e, hlt.le, hid ▸ he⟩
    · exact ⟨e', le_rfl, he'⟩
  goes {σ τ id e} _ _ hitems _ := by
    refine sinksBelow_of_items fun id' e' _ he' => ?_
    rw [hitems, getElem?_erase] at he'
    split at he'
    · cases he'
    · exact ⟨e', le_rfl, he'⟩

/-- Whatever its result, an operation that is no query and no promotion makes no item more durable. -/
theorem sinks_step (htidy : Tidy w.now w.session.state) (hquery : ∀ q, ev.op ≠ .query q)
    (hpromote : ∀ ids source target, ev.op ≠ .promote ids source target) :
    SinksBelow w.session.state.nextId.toNat (w.prepare ev).session (w.step P cfg ev).session := by
  have hkeeps : Keeps (SinksBelow w.session.state.nextId.toNat) (ev.op.exec P cfg) (w.prepare ev) := by
    cases hop : ev.op.presses with
    | some s =>
        refine keeps_pressed sinksBelow_allows hop (fun items σ nextId now hstate hroom => ?_)
          fun ids source heq => (hpromote _ _ _ heq).elim
        refine sinksBelow_of_items fun id e hid he => ?_
        rcases items_batch P (w := w) htidy hstate hroom nextId now id with hsame | hnew
        · exact ⟨e, le_rfl, hsame ▸ he⟩
        · exact absurd hid (not_lt.mpr hnew.1)
    | none =>
        cases heq : ev.op with
        | query q => exact (hquery q heq).elim
        | reason scope => exact Keeps.map keeps_throw
        | validateShapes data shapes => exact Keeps.map keeps_throw
        | evaluateDatalog scope => exact Keeps.map keeps_throw
        | add scope item => rw [heq] at hop; cases hop
        | addBatch scope items => rw [heq] at hop; cases hop
        | remove scope id => rw [heq] at hop; cases hop
        | promote ids source target => rw [heq] at hop; cases hop
        | evict scope criteria => rw [heq] at hop; cases hop
  exact hkeeps.step

/-! ## What an eviction reports -/

/-- Exactly `n` items left `s`, each of them dropped or to a colder tier, and none entered. -/
structure Left (s : ContextScope) (n : Nat) (σ τ : Session) : Prop where
  count : {id | σ.state.scopeOf id = some s ∧ τ.state.scopeOf id ≠ some s}.ncard = n
  colder : ∀ id, σ.state.scopeOf id = some s → τ.state.scopeOf id ≠ some s →
    τ.state.scopeOf id = none ∨ ∃ t < s, τ.state.scopeOf id = some t
  entered : ∀ id, τ.state.scopeOf id = some s → σ.state.scopeOf id = some s

/-- A sweep of colder tiers leaves what is in `s` or warmer where it is. -/
theorem scopeOf_sweep_warm {t : ContextScope} (h : Sweep P cfg scopes σ τ) (hscopes : ∀ t ∈ scopes, t < s) (hle : s ≤ t)
    (ht : σ.state.scopeOf id = some t) : τ.state.scopeOf id = some t := by
  have hnot : ∀ t' ∈ scopes, σ.state.scopeOf id ≠ some t' := by
    intro t' ht' heq
    cases ht.symm.trans heq
    exact absurd (hscopes t ht') hle.not_gt
  rw [State.scopeOf, items_sweep h hnot]
  exact ht

/-- What is in a tier after a sweep was there or in a warmer one before. -/
theorem scopeOf_of_sweep {t : ContextScope} (h : Sweep P cfg scopes σ τ) (ht : τ.state.scopeOf id = some t) :
    ∃ t₀, t ≤ t₀ ∧ σ.state.scopeOf id = some t₀ := by
  obtain ⟨e', he', rfl⟩ := State.scopeOf_eq_some.mp ht
  obtain ⟨e, he, rfl | ⟨c, hc, rfl⟩⟩ := h.descends id e' he'
  · exact ⟨e'.scope, le_rfl, State.scopeOf_eq_some.mpr ⟨e', he, rfl⟩⟩
  · exact ⟨e.scope, hc.le, State.scopeOf_eq_some.mpr ⟨e, he, rfl⟩⟩

/-- Listed items leave the tier, then the colder tiers are swept. -/
theorem left_of_sweep (hnodup : ids.Nodup) (hall : ∀ id ∈ ids, σ.state.scopeOf id = some s)
    (hgone : ∀ id ∈ ids, ∀ t, ρ.state.scopeOf id = some t → t < s)
    (hrest : ∀ id, id ∉ ids → ρ.state.scopeOf id = σ.state.scopeOf id) (h : Sweep P cfg scopes ρ τ)
    (hscopes : ∀ t ∈ scopes, t < s) : Left s ids.length σ τ := by
  have hcold : ∀ id ∈ ids, ∀ t, τ.state.scopeOf id = some t → t < s := by
    intro id hid t ht
    obtain ⟨t₀, hle, ht₀⟩ := scopeOf_of_sweep h ht
    exact hle.trans_lt (hgone id hid t₀ ht₀)
  have hstays : ∀ id, id ∉ ids → σ.state.scopeOf id = some s → τ.state.scopeOf id = some s := by
    intro id hid hs
    exact scopeOf_sweep_warm h hscopes le_rfl ((hrest id hid).trans hs)
  have hset : {id | σ.state.scopeOf id = some s ∧ τ.state.scopeOf id ≠ some s} = (ids.toFinset : Set ItemId) := by
    ext id
    rw [Finset.mem_coe, List.mem_toFinset, Set.mem_ofPred_eq]
    constructor
    · rintro ⟨hs, hleft⟩
      by_contra hid
      exact hleft (hstays id hid hs)
    · intro hid
      exact ⟨hall id hid, fun hs => (hcold id hid s hs).false⟩
  refine ⟨?_, fun id hs hleft => ?_, fun id hs => ?_⟩
  · rw [hset, Set.ncard_coe_finset, List.toFinset_card_of_nodup hnodup]
  · have hid : id ∈ ids := by
      by_contra hid
      exact hleft (hstays id hid hs)
    cases ht : τ.state.scopeOf id with
    | none => exact Or.inl rfl
    | some t => exact Or.inr ⟨t, hcold id hid t ht, rfl⟩
  · have hid : id ∉ ids := fun hid => (hcold id hid s hs).false
    obtain ⟨t, hle, ht⟩ := scopeOf_of_sweep h hs
    -- Had it been warmer than `s`, the sweep would have left it there.
    cases hs.symm.trans (scopeOf_sweep_warm h hscopes hle ht)
    exact (hrest id hid).symm.trans ht

theorem left_of_evicted (h : Evicted P cfg s n σ τ criteria) : Left s n σ τ := by
  have hnodup (ids : List ItemId) := nodup_eraseDups ids
  cases criteria with
  | items ids =>
      obtain ⟨rfl, hall, rfl⟩ := h
      have hsweep : Sweep P cfg [] (σ.dropItems P ids.eraseDups) (σ.dropItems P ids.eraseDups) := .nil
      refine left_of_sweep (hnodup ids) (fun id hid => hall id (List.mem_eraseDups.mp hid)) (fun id hid t ht => ?_)
        (fun id hid => ?_) hsweep (fun _ ht => (List.not_mem_nil ht).elim)
      · rw [scopeOf_dropItems (hnodup ids), if_pos hid] at ht
        cases ht
      · rw [scopeOf_dropItems (hnodup ids), if_neg hid]
  | demote ids target =>
      obtain ⟨rfl, hlt, hall, hsweep⟩ := h
      refine left_of_sweep (hnodup ids) (fun id hid => hall id (List.mem_eraseDups.mp hid)) (fun id hid t ht => ?_)
        (fun id hid => ?_) hsweep (fun t ht => (ContextScope.mem_andColder.mp ht).trans_lt hlt)
      · have ht' : (σ.moveItems P ids.eraseDups target .demoted).state.scopeOf id = some t := ht
        rw [scopeOf_moveItems (hnodup ids), if_pos hid, hall id (List.mem_eraseDups.mp hid)] at ht'
        cases ht'
        exact hlt
      · show (σ.moveItems P ids.eraseDups target .demoted).state.scopeOf id = _
        rw [scopeOf_moveItems (hnodup ids), if_neg hid]
  | policy count =>
      obtain ⟨now, rfl, hsweep⟩ := h
      refine left_of_sweep chosenVictims_nodup (fun id hid => scopeOf_of_mem_chosenVictims hid) (fun id hid t ht => ?_)
        (fun id hid => ?_) hsweep (fun t ht => ?_)
      · exact ContextScope.colder_lt (scopeOf_evictVictims chosenVictims_nodup hid ht)
      · exact scopeOf_evictVictims_of_not_mem chosenVictims_nodup hid
      · cases hcolder : s.colder with
        | none =>
            rw [ContextScope.andColder_of_none hcolder] at ht
            cases ht
        | some colder =>
            rw [ContextScope.andColder_of_some hcolder] at ht
            exact (ContextScope.mem_andColder.mp ht).trans_lt (ContextScope.colder_lt hcolder)

/-- In every state that a run from an `open` that succeeds reaches, whatever transactions fail then and in the call: what is
added to a tier, removed from it, evicted from it or promoted into it leaves the stores and entries of the warmer tiers as
they were. Only a query or a promotion makes an item more durable. And an eviction that returns a number reports how many
items left the tier; they were dropped or are in colder tiers, and none entered. -/
theorem pressure_stays_below (P : Platform) (persistent : Tiers Bool) {w w₀ : World}
    (hopen : (openSession P persistent).run.run w = (.ok (), w₀)) (cfg : Settings) (evs : List Event) (ev : Event) :
    let w₁ := w₀.run P cfg evs
    let σ := w₁.session
    let τ := (w₁.step P cfg ev).session
    (∀ s t, ev.op.presses = some s → s < t → τ.stores.get t = σ.stores.get t ∧
      ∀ (id : ItemId) (e : Entry), e.scope = t → (τ.state.items[id]? = some e ↔ σ.state.items[id]? = some e)) ∧
    ((∀ q, ev.op ≠ .query q) → (∀ ids source target, ev.op ≠ .promote ids source target) →
      ∀ id t t', σ.state.scopeOf id = some t → τ.state.scopeOf id = some t' → t' ≤ t) ∧
    ∀ s criteria n, ev.op = .evict s criteria → (w₁.perform P cfg ev).1 = .ok (.evicted n) →
      {id | σ.state.scopeOf id = some s ∧ τ.state.scopeOf id ≠ some s}.ncard = n ∧
      (∀ id, σ.state.scopeOf id = some s → τ.state.scopeOf id ≠ some s →
        τ.state.scopeOf id = none ∨ ∃ t < s, τ.state.scopeOf id = some t) ∧
      ∀ id, τ.state.scopeOf id = some s → σ.state.scopeOf id = some s := by
  intro w₁ σ τ
  have htidy : Tidy w₁.now w₁.session.state := (tidy_open hopen).run
  refine ⟨fun s t hop hlt => ?_, fun hquery hpromote id t t' ht ht' => ?_, fun s criteria n hop hok => ?_⟩
  · have hframe : Frame s (w₁.prepare ev).session τ := frame_step htidy hop
    refine ⟨hframe.stores t hlt, fun id e he => ?_⟩
    exact hframe.entries id e (he ▸ hlt)
  · obtain ⟨e, he, -⟩ := State.scopeOf_eq_some.mp ht
    obtain ⟨t₀, hle, ht₀⟩ := sinks_step htidy hquery hpromote id t' (htidy.fresh id e he) ht'
    cases ht.symm.trans ht₀
    exact hle
  · have hspec : Runs Later (evict P cfg s criteria) (w₁.prepare ev) _ (Halts P cfg ev.op (w₁.prepare ev)) := evict_spec
    have hevicted := perform_map (f := Reply.evicted) (fun _ _ h => Reply.evicted.inj h) (by rw [hop]; rfl) hspec hok
    have hleft := left_of_evicted hevicted.1
    exact ⟨hleft.count, hleft.colder, hleft.entered⟩

/-- An eviction from major by the policy, with an item in enduring. -/
theorem pressure_stays_below_policy :
    let evs : List Event := [⟨.add .enduring note, [], []⟩, ⟨.addBatch .major [note, note], [], [1]⟩]
    let ev : Event := ⟨.evict .major (.policy 1), [], []⟩
    let w₁ := World.start.run notePlatform (manual none) evs
    let τ := (w₁.step notePlatform (manual none) ev).session
    τ.stores.get .enduring = w₁.session.stores.get .enduring ∧
      {id | w₁.session.state.scopeOf id = some .major ∧ τ.state.scopeOf id ≠ some .major}.ncard = 1 := by
  intro evs ev w₁ τ
  have hopen : (openSession notePlatform (.const true)).run.run World.start = (.ok (), World.start) := rfl
  obtain ⟨hframe, -, hevict⟩ := pressure_stays_below notePlatform (.const true) hopen (manual none) evs ev
  exact ⟨(hframe .major .enduring rfl (by decide)).1, (hevict .major (.policy 1) 1 rfl rfl).1⟩

end Semanticore.Context
