import Semanticore.Context.Lemmas.Checks
import Semanticore.Context.Lemmas.Spec
import Semanticore.Context.Run

/-!
# Where the operations can end

One specification for each public method, and from them what every operation has in common: a first stage that
adds a batch or answers a query, then a trail of actions.
-/

namespace Semanticore.Context
open Semanticore.Core Semanticore.Lib

/-! ## Stages -/

/-- The first stage of an operation, between two readings of the clock. -/
inductive Begins (P : Platform) (cfg : Settings) (t t' : Instant) : Op → Session → Session → Prop
  | nothing {op σ} : Begins P cfg t t' op σ σ
  | added {op scope items σ} (now) (hop : op.batch = some (scope, items)) (hadm : Admissible σ items)
      (hle : t ≤ now) (hle' : now ≤ t') : Begins P cfg t t' op σ (σ.added P scope items now)
  | answered {q σ} (now ids) (hle : t ≤ now) (hle' : now ≤ t') :
      Begins P cfg t t' (.query q) σ (σ.answered cfg now ids)

/-- How an operation can fail: refused, out of ids, or interrupted by a failing transaction. -/
inductive Halts (P : Platform) (cfg : Settings) (op : Op) (w : World) : Halt → World → Prop
  | refused {e w'} (he : e ≠ .storage) (hsame : w'.session = w.session) : Halts P cfg op w (.err e) w'
  | overflow {w' scope items} (hop : op.batch = some (scope, items))
      (hfull : 2 ^ 64 ≤ w.session.state.nextId.toNat + items.length) (hsame : w'.session = w.session) :
      Halts P cfg op w .panic w'
  | failed {w' τ} (hunclean : ¬ w.Clean) (hbegin : Begins P cfg w.now w'.now op w.session τ)
      (hends : Ends P cfg τ w'.session) : Halts P cfg op w (.err .storage) w'

/-- An operation that returns did its first stage and then whole actions. -/
def Finishes (P : Platform) (cfg : Settings) (op : Op) (w w' : World) : Prop :=
  ∃ τ, Begins P cfg w.now w'.now op w.session τ ∧ Trail P cfg τ w'.session

variable {P : Platform} {cfg : Settings} {w w' : World} {op : Op} {σ τ : Session}

theorem Begins.mono {t t' t'' : Instant} (h : Begins P cfg t t' op σ τ) (hle : t' ≤ t'') :
    Begins P cfg t t'' op σ τ := by
  cases h with
  | nothing => exact .nothing
  | added now hop hadm hfrom hto => exact .added now hop hadm hfrom (hto.trans hle)
  | answered now ids hfrom hto => exact .answered now ids hfrom (hto.trans hle)

theorem Finishes.of_trail (h : Trail P cfg w.session w'.session) : Finishes P cfg op w w' :=
  ⟨w.session, .nothing, h⟩

/-- A failure inside a later part of an operation. -/
theorem Fails.halts {w₁ : World} {S : Session → Prop} {h : Halt} (hR : Later w w₁)
    (hbegin : Begins P cfg w.now w₁.now op w.session τ) (hS : ∀ σ, S σ → Ends P cfg τ σ) (hR' : Later w₁ w')
    (hfails : Fails w₁ S h w') : Halts P cfg op w h w' := by
  obtain ⟨rfl, hunclean, hleft⟩ := hfails
  exact .failed (fun hc => hunclean (hR.clean hc)) (hbegin.mono hR'.2) (hS _ hleft)

/-- A failure in an operation that has no first stage, or before it. -/
theorem Fails.halts_of_trail {w₁ : World} {h : Halt} (hR : Later w w₁) (htrail : Trail P cfg w.session w₁.session)
    (hR' : Later w₁ w') (hfails : Fails w₁ (Ends P cfg w₁.session) h w') : Halts P cfg op w h w' :=
  hfails.halts (τ := w.session) hR .nothing (fun _ => htrail.then_ends) hR'

/-- Bound enforcement as the last part of an operation. -/
theorem sweep_halts {w₁ : World} (scopes : List ContextScope) (hR : Later w w₁)
    (hbegin : Begins P cfg w.now w₁.now op w.session τ) (htrail : Trail P cfg τ σ) :
    Runs Later (scopes.forM (enforceTier P cfg)) { w₁ with session := σ }
      (fun _ w' => Sweep P cfg scopes σ w'.session ∧ Trail P cfg τ w'.session) (Halts P cfg op w) := by
  have hlater : Later w { w₁ with session := σ } := hR
  refine (sweep_spec P cfg _ scopes).mono (fun _ _ _ h => ⟨h.1, htrail.trans h.2⟩) fun _ _ hR' hh => ?_
  exact hh.halts hlater hbegin (fun _ => htrail.then_ends) hR'

/-! ## Adding -/

theorem forM_validate {st : State} {items : List ContextItem} :
    Runs Later (items.forM fun item => liftExcept (validate st item)) w
      (fun _ w' => w' = w ∧ ∀ item ∈ items, validate st item = .ok ())
      (fun h w' => w' = w ∧ ∃ e, h = .err e ∧ ∃ item ∈ items, validate st item = .error e) := by
  let I (rest : List ContextItem) (w' : World) : Prop :=
    w' = w ∧ rest ⊆ items ∧ ∀ item ∈ items, item ∈ rest ∨ validate st item = .ok ()
  have hloop : Runs Later (items.forM fun item => liftExcept (validate st item)) w (fun _ w' => I [] w')
      (fun h w' => w' = w ∧ ∃ e, h = .err e ∧ ∃ item ∈ items, validate st item = .error e) := by
    refine Runs.forM (I := I) ?_ ⟨rfl, List.Subset.refl _, fun _ h => Or.inl h⟩
    rintro item rest _ ⟨rfl, hsub, hI⟩
    refine liftExcept_spec.mono (fun u w' _ h => ⟨h.1, ?_, fun item' hmem => ?_⟩) fun h w' _ hh => ?_
    · exact fun item' hmem => hsub (List.mem_cons_of_mem _ hmem)
    · rcases hI item' hmem with hin | hok
      · rcases List.mem_cons.mp hin with rfl | hrest
        · exact Or.inr h.2
        · exact Or.inl hrest
      · exact Or.inr hok
    · obtain ⟨rfl, e, rfl, he⟩ := hh
      exact ⟨rfl, e, rfl, item, hsub (List.mem_cons_self ..), he⟩
  exact hloop.mono (fun _ _ _ h => ⟨h.1, fun item hmem => by simpa using h.2.2 item hmem⟩) fun _ _ _ h => h

theorem addBatch_spec {scope : ContextScope} {items : List ContextItem} (op : Op) (hop : op.batch = some (scope, items)) :
    Runs Later (addBatch P cfg scope items) w
      (fun ids w' => ids = idRange w.session.state.nextId items.length ∧ Admissible w.session items ∧
        ∃ now, now = w.reading ∧ now ≤ w'.now ∧
          Sweep P cfg scope.andColder (w.session.added P scope items now) w'.session ∧
          Trail P cfg (w.session.added P scope items now) w'.session)
      (Halts P cfg op w) := by
  unfold addBatch
  apply runs_getState
  refine (forM_validate.mono (fun _ _ _ h => h) fun h w' _ hh => ?_).bind fun _ w₀ _ h₀ => ?_
  · obtain ⟨rfl, e, rfl, item, -, he⟩ := hh
    exact .refused (validate_error he) rfl
  obtain ⟨rfl, hvalid⟩ := h₀
  refine (checkedAdd_spec.mono (fun _ _ _ h => h) fun h w' _ hh => ?_).bind fun nextId w₁ _ h₁ => ?_
  · obtain ⟨rfl, rfl, hfull⟩ := hh
    exact .overflow hop hfull rfl
  obtain ⟨rfl, rfl, hroom⟩ := h₁
  refine ((withWrite_spec.and withWrite_clock).mono (fun _ _ _ h => h) fun h w' hR hh => ?_).bind fun _ w₂ hR₂ h₂ => ?_
  · exact hh.1.halts (Std.Refl.refl _) .nothing (fun _ => Ends.of_eq) hR
  obtain ⟨h₂, hclock, -⟩ := h₂
  refine instantNow_spec.bind fun now w₃ hR₃ h₃ => ?_
  obtain ⟨hσ₃, hreading, rfl⟩ := h₃
  apply runs_modifySession
  have hadm : Admissible w₁.session items := ⟨hvalid, hroom⟩
  have hadded : w₃.session.mapState (·.addBatch scope ((idRange w₁.session.state.nextId items.length).zip items)
      (w₁.session.state.nextId + UInt64.ofNat items.length) w₃.now) =
      w₁.session.added P scope items w₃.now := by
    rw [hσ₃, h₂]; rfl
  rw [hadded]
  have hR : Later w₁ w₃ := Trans.trans hR₂ hR₃
  refine (sweep_halts scope.andColder hR (.added _ hop hadm hR.2 le_rfl) .refl).bind fun _ w₄ hR₄ h₄ => ?_
  exact Runs.ret ⟨rfl, hadm, _, hreading.trans hclock.reading, hR₄.2, h₄.1, h₄.2⟩

theorem add_spec {scope : ContextScope} {item : ContextItem} :
    Runs Later (add P cfg scope item) w
      (fun id w' => id = ⟨w.session.state.nextId⟩ ∧ Admissible w.session [item] ∧
        ∃ now, now = w.reading ∧ now ≤ w'.now ∧
          Sweep P cfg scope.andColder (w.session.added P scope [item] now) w'.session ∧
          Trail P cfg (w.session.added P scope [item] now) w'.session)
      (Halts P cfg (.add scope item) w) := by
  unfold add
  refine (addBatch_spec (.add scope item) rfl).bind fun ids w' _ h => ?_
  obtain ⟨rfl, hrest⟩ := h
  refine Runs.ret ⟨?_, hrest⟩
  simp

/-! ## Removing -/

theorem remove_spec {scope : ContextScope} {id : ItemId} :
    Runs Later (remove P scope id) w
      (fun found w' => if found then w.session.state.scopeOf id = some scope ∧
          w'.session = w.session.removed P id scope
        else w.session.state.scopeOf id ≠ some scope ∧ w'.session = w.session)
      (Halts P cfg op w) := by
  unfold remove
  apply runs_getState
  split
  · exact Runs.ret (by simpa using ‹_›)
  · rename_i hscope
    refine (delete_spec.mono (fun _ _ _ h => h) fun h w' hR hh => ?_).bind fun _ w' _ hw' => ?_
    · exact hh.halts (Std.Refl.refl w) .nothing (fun _ => Ends.of_eq) hR
    · apply runs_modifySession
      refine Runs.ret ?_
      simp only [if_true, hw']
      exact ⟨by simpa using hscope, rfl⟩

theorem Act.of_scopeOf {scope : ContextScope} {id : ItemId} (h : σ.state.scopeOf id = some scope) :
    Act P cfg σ (σ.removed P id scope) := by
  obtain ⟨e, he, rfl⟩ := State.scopeOf_eq_some.mp h
  exact .removed he

/-! ## Promoting and evicting -/

theorem checkInScope_spec {ids : List ItemId} {scope : ContextScope} :
    Runs Later (liftExcept (checkInScope w.session.state ids scope)) w
      (fun us w' => w' = w ∧ us = ids.eraseDups ∧ ∀ id ∈ ids, w.session.state.scopeOf id = some scope)
      (Halts P cfg op w) := by
  refine liftExcept_spec.mono (fun us w' _ h => ⟨h.1, checkInScope_ok.mp h.2⟩) fun h w' _ hh => ?_
  obtain ⟨rfl, e, rfl, he⟩ := hh
  exact .refused (checkInScope_error he) rfl

section
variable {ids : List ItemId} {scope source target : ContextScope}

theorem movable_of_scopeOf (h : ∀ id ∈ ids, σ.state.scopeOf id = some source) (hne : target ≠ source) :
    Movable target ids.eraseDups σ := by
  refine ⟨nodup_eraseDups _, fun id hid => ?_⟩
  obtain ⟨e, he, hs⟩ := State.scopeOf_eq_some.mp (h id (List.mem_eraseDups.mp hid))
  exact ⟨e, he, hs ▸ hne⟩

theorem droppable_of_scopeOf (h : ∀ id ∈ ids, σ.state.scopeOf id = some source) :
    Droppable ids.eraseDups σ := by
  refine ⟨nodup_eraseDups _, fun id hid => ?_⟩
  obtain ⟨e, he, -⟩ := State.scopeOf_eq_some.mp (h id (List.mem_eraseDups.mp hid))
  exact ⟨e, he⟩

theorem promote_spec : Runs Later (promote P cfg ids source target) w
    (fun n w' => source ≤ target ∧ (∀ id ∈ ids, w.session.state.scopeOf id = some source) ∧
      if target = source then n = 0 ∧ w'.session = w.session
      else n = ids.eraseDups.length ∧
        Sweep P cfg target.andColder
          ((w.session.moveItems P ids.eraseDups target .promoted).counted 0 ids.eraseDups.length 0) w'.session ∧
        Trail P cfg w.session w'.session)
    (Halts P cfg op w) := by
  unfold promote
  by_cases hlt : target < source
  · simp only [if_pos hlt]
    exact runs_throw (.refused (by simp) rfl)
  simp only [if_neg hlt]
  apply runs_getState
  refine checkInScope_spec.bind fun us w₀ _ h₀ => ?_
  obtain ⟨rfl, rfl, hall⟩ := h₀
  by_cases heq : target = source
  · simp only [if_pos heq]
    exact Runs.ret ⟨not_lt.mp hlt, hall, rfl, rfl⟩
  simp only [if_neg heq]
  refine ((moveItems_spec P cfg (movable_of_scopeOf hall heq)).mono (fun _ _ _ h => h) fun h w' hR hh => ?_).bind
    fun _ w₁ hR₁ h₁ => ?_
  · exact hh.halts_of_trail (Std.Refl.refl _) .refl hR
  apply runs_modifySession
  have hcount : Trail P cfg w₀.session (w₁.session.counted 0 ids.eraseDups.length 0) :=
    h₁.2.trans (Act.counted _ _).trail
  refine (sweep_halts target.andColder hR₁ .nothing hcount).bind fun _ w₂ hR₂ h₂ => ?_
  exact Runs.ret ⟨not_lt.mp hlt, hall, rfl, h₁.1 ▸ h₂.1, h₂.2⟩

/-- What an eviction that returned did. -/
def Evicted (P : Platform) (cfg : Settings) (scope : ContextScope) (n : Nat) (σ τ : Session) :
    EvictionCriteria → Prop
  | .items ids => n = ids.eraseDups.length ∧ (∀ id ∈ ids, σ.state.scopeOf id = some scope) ∧
      τ = σ.dropItems P ids.eraseDups
  | .demote ids target => n = ids.eraseDups.length ∧ target < scope ∧
      (∀ id ∈ ids, σ.state.scopeOf id = some scope) ∧
      Sweep P cfg target.andColder
        ((σ.moveItems P ids.eraseDups target .demoted).counted 0 0 ids.eraseDups.length) τ
  | .policy count => ∃ now, n = (chosenVictims cfg σ.state now scope count).length ∧
      Sweep P cfg scope.andColder.tail
        ((σ.selected cfg now scope count).evictVictims P cfg scope (chosenVictims cfg σ.state now scope count)) τ

theorem evict_spec {criteria : EvictionCriteria} : Runs Later (evict P cfg scope criteria) w
    (fun n w' => Evicted P cfg scope n w.session w'.session criteria ∧ Trail P cfg w.session w'.session)
    (Halts P cfg op w) := by
  cases criteria with
  | items ids =>
      unfold evict
      apply runs_getState
      refine checkInScope_spec.bind fun us w₀ _ h₀ => ?_
      obtain ⟨rfl, rfl, hall⟩ := h₀
      refine ((dropItems_spec P cfg (droppable_of_scopeOf hall)).mono (fun _ _ _ h => h) fun h w' hR hh => ?_).bind
        fun _ w₁ hR₁ h₁ => ?_
      · exact hh.halts_of_trail (Std.Refl.refl _) .refl hR
      · exact Runs.ret ⟨⟨rfl, hall, h₁.1⟩, h₁.2⟩
  | demote ids target =>
      unfold evict
      by_cases hle : scope ≤ target
      · simp only [if_pos hle]
        exact runs_throw (.refused (by simp) rfl)
      simp only [if_neg hle]
      have hlt : target < scope := not_le.mp hle
      apply runs_getState
      refine checkInScope_spec.bind fun us w₀ _ h₀ => ?_
      obtain ⟨rfl, rfl, hall⟩ := h₀
      refine ((moveItems_spec P cfg (movable_of_scopeOf hall hlt.ne)).mono (fun _ _ _ h => h)
        fun h w' hR hh => ?_).bind fun _ w₁ hR₁ h₁ => ?_
      · exact hh.halts_of_trail (Std.Refl.refl _) .refl hR
      apply runs_modifySession
      have hcount : Trail P cfg w₀.session (w₁.session.counted 0 0 ids.eraseDups.length) :=
        h₁.2.trans (Act.counted _ _).trail
      refine (sweep_halts target.andColder hR₁ .nothing hcount).bind fun _ w₂ hR₂ h₂ => ?_
      exact Runs.ret ⟨⟨rfl, hlt, hall, h₁.1 ▸ h₂.1⟩, h₂.2⟩
  | policy count =>
      unfold evict
      refine victims_spec.bind fun us w₁ hR₁ h₁ => ?_
      obtain ⟨now, rfl, hσ⟩ := h₁
      have hselect : Trail P cfg w.session w₁.session := hσ ▸ (Act.selected ..).trail
      refine ((evictVictims_spec P cfg (hσ ▸ evictable_chosenVictims cfg w.session now scope count)).mono
        (fun _ _ _ h => h) fun h w' hR hh => ?_).bind fun _ w₂ hR₂ h₂ => ?_
      · exact hh.halts_of_trail hR₁ hselect hR
      have htrail : Trail P cfg w.session w₂.session := hselect.trans h₂.2
      cases hcolder : scope.colder with
      | none =>
          refine Runs.ret ⟨⟨now, rfl, ?_⟩, htrail⟩
          rw [ContextScope.andColder_of_none hcolder, ← hσ, ← h₂.1]
          exact .nil
      | some colder =>
          refine (sweep_halts colder.andColder (Trans.trans hR₁ hR₂) .nothing htrail).bind fun _ w₃ hR₃ h₃ => ?_
          refine Runs.ret ⟨⟨now, rfl, ?_⟩, h₃.2⟩
          rw [ContextScope.andColder_of_some hcolder, ← hσ, ← h₂.1]
          exact h₃.1

end

end Semanticore.Context
