import Semanticore.Context.Lemmas.Effects
import Semanticore.Lib.Program

/-!
# Where the Session's programs can end

One specification for each program: the Session it leaves when it returns, and the Session it leaves when a
storage transaction fails inside it. No index lookup the code relies on fails, so no program panics.
-/

namespace Semanticore.Context
open Semanticore.Core Semanticore.Lib

/-! ## Worlds along a program -/

/-- Transactions are used up in order and the clock never goes backwards. -/
def Later (w w' : World) : Prop := w'.fates <:+ w.fates ∧ w.now ≤ w'.now

instance : Std.Refl Later := ⟨fun _ => ⟨List.suffix_rfl, le_rfl⟩⟩

instance : IsTrans World Later := ⟨fun _ _ _ h h' => ⟨h'.1.trans h.1, h.2.trans h'.2⟩⟩

/-- No coming transaction fails. -/
def World.Clean (w : World) : Prop := ∀ f ∈ w.fates, f = .commit

/-- What the next reading of the clock gives. -/
def World.reading (w : World) : Instant := w.now + w.elapsed.headD 0

theorem World.now_le_reading (w : World) : w.now ≤ w.reading := Nat.le_add_right ..

/-- The clock was not read. -/
def SameClock (w w' : World) : Prop := w'.elapsed = w.elapsed ∧ w'.now = w.now

instance : Std.Refl SameClock := ⟨fun _ => ⟨rfl, rfl⟩⟩

instance : IsTrans World SameClock := ⟨fun _ _ _ h h' => ⟨h'.1.trans h.1, h'.2.trans h.2⟩⟩

theorem SameClock.reading {w w' : World} (h : SameClock w w') : w'.reading = w.reading := by
  rw [World.reading, World.reading, h.1, h.2]

variable {P : Platform} {cfg : Settings} {w w' w'' : World} {α α' : Type}

theorem Later.clean (h : Later w w') (hw : w.Clean) : w'.Clean := fun f hf => hw f (h.1.subset hf)

/-- A storage transaction failed and left a Session that satisfies `S`. -/
structure Fails (w : World) (S : Session → Prop) (h : Halt) (w' : World) : Prop where
  storage : h = .err .storage
  unclean : ¬ w.Clean
  left : S w'.session

theorem Fails.from {S S' : Session → Prop} {h : Halt} (hR : Later w w') (hfails : Fails w' S h w'')
    (hS : ∀ σ, S σ → S' σ) : Fails w S' h w'' :=
  ⟨hfails.storage, fun hc => hfails.unclean (hR.clean hc), hS _ hfails.left⟩

/-! ## Steps of a program -/

section
variable {R : World → World → Prop} {Q : α → World → Prop} {Q' : α' → World → Prop}
  {E E' : Halt → World → Prop}

theorem runs_getState {f : State → SessionM α} (h : Runs R (f w.session.state) w Q E) :
    Runs R (getState >>= f) w Q E := h

theorem runs_getSession {f : World → SessionM α} (h : Runs R (f w) w Q E) : Runs R (get >>= f) w Q E := h

theorem runs_throw {h : Halt} {f : α → SessionM α'} (he : E' h w) :
    Runs Later (throw h >>= f) w Q' E' := ⟨Std.Refl.refl w, he⟩

theorem runs_modifySession {g : Session → Session} {f : PUnit → SessionM α}
    (h : Runs Later (f ⟨⟩) { w with session := g w.session } Q E) :
    Runs Later (modifySession g >>= f) w Q E := h

end

theorem transaction_spec : Runs Later transaction w (fun _ w' => w'.session = w.session)
    (Fails w (· = w.session)) := by
  rcases w with ⟨σ, fates, elapsed, now⟩
  cases fates with
  | nil => exact ⟨⟨List.suffix_rfl, le_rfl⟩, rfl⟩
  | cons fate fates =>
      cases fate with
      | commit => exact ⟨⟨List.suffix_cons .., le_rfl⟩, rfl⟩
      | fail =>
          refine ⟨⟨List.suffix_cons .., le_rfl⟩, rfl, fun hc => ?_, rfl⟩
          exact Fate.noConfusion (hc .fail (by simp))

theorem transaction_clock {Q : PUnit → World → Prop} {E : Halt → World → Prop} (hQ : ∀ w', Q ⟨⟩ w') (hE : ∀ h w', E h w') :
    Runs SameClock transaction w Q E := by
  rcases w with ⟨σ, fates, elapsed, now⟩
  cases fates with
  | nil => exact ⟨⟨rfl, rfl⟩, hQ _⟩
  | cons fate fates =>
      cases fate with
      | commit => exact ⟨⟨rfl, rfl⟩, hQ _⟩
      | fail => exact ⟨⟨rfl, rfl⟩, hE _ _⟩

theorem instantNow_spec {E : Halt → World → Prop} : Runs Later instantNow w
    (fun now w' => w'.session = w.session ∧ now = w.reading ∧ now = w'.now) E := by
  rcases w with ⟨σ, fates, elapsed, now⟩
  cases elapsed with
  | nil => exact ⟨⟨List.suffix_rfl, le_rfl⟩, rfl, rfl, rfl⟩
  | cons d ds =>
      exact ⟨⟨List.suffix_rfl, Nat.le_add_right ..⟩, rfl, rfl, rfl⟩

theorem withWrite_spec {scope : ContextScope} {f : Store → Store} : Runs Later (withWrite scope f) w
    (fun _ w' => w'.session = w.session.commit scope (f (w.session.stores.get scope)))
    (Fails w (· = w.session)) := by
  refine transaction_spec.bind fun _ w' _ hw' => ?_
  rw [← hw']
  exact Runs.update ⟨List.suffix_rfl, le_rfl⟩ rfl

/-- Writing reads no clock. -/
theorem withWrite_clock {scope : ContextScope} {f : Store → Store} :
    Runs SameClock (withWrite scope f) w (fun _ _ => True) fun _ _ => True := by
  refine (transaction_clock (Q := fun _ _ => True) (fun _ => trivial) fun _ _ => trivial).bind fun _ w' _ _ => ?_
  exact Runs.update ⟨rfl, rfl⟩ trivial

theorem delete_spec {scope : ContextScope} {id : ItemId} : Runs Later (delete P scope id) w
    (fun _ w' => w'.session = w.session.deleted P id scope) (Fails w (· = w.session)) := withWrite_spec

theorem checkedAdd_spec {a : UInt64} {k : Nat} : Runs Later (checkedAdd a k) w
    (fun b w' => w' = w ∧ b = a + UInt64.ofNat k ∧ a.toNat + k < 2 ^ 64)
    (fun h w' => h = .panic ∧ w' = w ∧ 2 ^ 64 ≤ a.toNat + k) := by
  unfold checkedAdd
  split
  · exact Runs.ret ⟨rfl, rfl, ‹_›⟩
  · exact Runs.exit ⟨rfl, rfl, by omega⟩

theorem liftExcept_spec {x : Except SessionError α} : Runs Later (liftExcept x) w
    (fun a w' => w' = w ∧ x = .ok a) (fun h w' => w' = w ∧ ∃ e, h = .err e ∧ x = .error e) := by
  cases x with
  | ok a => exact Runs.ret ⟨rfl, rfl⟩
  | error e => exact Runs.exit ⟨rfl, e, rfl, rfl⟩

/-! ## Moving and dropping -/

section
variable {id : ItemId} {e : Entry} {scope target : ContextScope} {arrival : Arrival}

theorem moveItem_spec (he : w.session.state.items[id]? = some e) (hne : target ≠ e.scope) :
    Runs Later (moveItem P id target arrival) w
      (fun _ w' => w'.session = w.session.moved P id e target arrival)
      (Fails w fun σ => σ = w.session ∨ HalfMove P w.session σ) := by
  unfold moveItem
  apply runs_getState
  simp only [he]
  refine (withWrite_spec.mono (fun _ _ _ h => h) fun _ _ _ h => ?_).bind fun _ w₁ hR₁ h₁ => ?_
  · exact h.from (Std.Refl.refl w) fun _ hσ => Or.inl hσ
  refine (delete_spec.mono (fun _ _ _ h => h) fun _ _ _ h => ?_).bind fun _ w₂ hR₂ h₂ => ?_
  · refine h.from hR₁ fun σ hσ => Or.inr ⟨id, e, target, he, hne, ?_⟩
    rw [hσ, h₁]
    rfl
  · apply runs_modifySession
    refine Runs.update ⟨List.suffix_rfl, le_rfl⟩ ?_
    simp only [h₂, h₁]
    rfl

theorem dropItem_spec (he : w.session.state.items[id]? = some e) :
    Runs Later (dropItem P id) w (fun _ w' => w'.session = w.session.dropped P id e)
      (Fails w (· = w.session)) := by
  unfold dropItem
  apply runs_getState
  simp only [he]
  refine delete_spec.bind fun _ w' _ hw' => ?_
  apply runs_modifySession
  refine Runs.update ⟨List.suffix_rfl, le_rfl⟩ ?_
  simp only [hw']
  rfl

/-! ## Loops over ids

A loop calls a program that has the effect `g` on ids whose lookup succeeds; `Pre` says that the lookups of the ids
still to come will succeed. -/

theorem forM_spec (Pre : List ItemId → Session → Prop) {f : ItemId → SessionM PUnit}
    {g : Session → ItemId → Session}
    (hstep : ∀ id rest w, Pre (id :: rest) w.session →
      Runs Later (f id) w (fun _ w' => w'.session = g w.session id)
        (Fails w fun σ => σ = w.session ∨ HalfMove P w.session σ))
    (hkeep : ∀ id rest σ, Pre (id :: rest) σ → Trail P cfg σ (g σ id) ∧ Pre rest (g σ id))
    {ids : List ItemId} (hpre : Pre ids w.session) :
    Runs Later (ids.forM f) w
      (fun _ w' => w'.session = ids.foldl g w.session ∧ Trail P cfg w.session w'.session)
      (Fails w (Ends P cfg w.session)) := by
  -- Invariant: what was done is a trail, and the remaining effects lead to where all of them lead.
  let I (rest : List ItemId) (w' : World) : Prop := Later w w' ∧ Pre rest w'.session ∧
    Trail P cfg w.session w'.session ∧ rest.foldl g w'.session = ids.foldl g w.session
  have hloop : Runs Later (ids.forM f) w (fun _ w' => I [] w') (Fails w (Ends P cfg w.session)) := by
    refine Runs.forM (I := I) ?_ ⟨Std.Refl.refl w, hpre, .refl, rfl⟩
    rintro id rest w₁ ⟨hR, hpre₁, htrail, hfold⟩
    obtain ⟨hact, hpre₂⟩ := hkeep id rest w₁.session hpre₁
    refine (hstep id rest w₁ hpre₁).mono (fun _ w₂ hR₂ h₂ => ?_) fun _ w₂ _ h₂ => ?_
    · exact ⟨Trans.trans hR hR₂, h₂ ▸ hpre₂, h₂ ▸ htrail.trans hact, h₂ ▸ hfold⟩
    · refine h₂.from hR fun σ hσ => ⟨w₁.session, htrail, hσ⟩
  exact hloop.mono (fun _ _ _ h => ⟨h.2.2.2, h.2.2.1⟩) fun _ _ _ h => h

/-- Distinct live items none of which is in `target`. -/
def Movable (target : ContextScope) (ids : List ItemId) (σ : Session) : Prop :=
  ids.Nodup ∧ ∀ id ∈ ids, ∃ e, σ.state.items[id]? = some e ∧ target ≠ e.scope

/-- Distinct live items. -/
def Droppable (ids : List ItemId) (σ : Session) : Prop :=
  ids.Nodup ∧ ∀ id ∈ ids, ∃ e, σ.state.items[id]? = some e

/-- Distinct live items of `scope`. -/
def Evictable (scope : ContextScope) (ids : List ItemId) (σ : Session) : Prop :=
  ids.Nodup ∧ ∀ id ∈ ids, ∃ e, σ.state.items[id]? = some e ∧ e.scope = scope

theorem Movable.next {σ : Session} {rest : List ItemId} (h : Movable target (id :: rest) σ) (P : Platform)
    (arrival : Arrival) : Movable target rest (σ.moveItem P target arrival id) := by
  obtain ⟨hid, hrest⟩ := List.nodup_cons.mp h.1
  refine ⟨hrest, fun id' hid' => ?_⟩
  rw [Session.items_moveItem_ne (show id ≠ id' from fun heq => hid (heq ▸ hid'))]
  exact h.2 id' (by simp [hid'])

theorem Droppable.next {σ : Session} {rest : List ItemId} (h : Droppable (id :: rest) σ) (P : Platform) :
    Droppable rest (σ.dropItem P id) := by
  obtain ⟨hid, hrest⟩ := List.nodup_cons.mp h.1
  refine ⟨hrest, fun id' hid' => ?_⟩
  rw [Session.items_dropItem_ne (show id ≠ id' from fun heq => hid (heq ▸ hid'))]
  exact h.2 id' (by simp [hid'])

theorem Evictable.next {σ : Session} {rest : List ItemId} (h : Evictable scope (id :: rest) σ) (P : Platform)
    (cfg : Settings) : Evictable scope rest (σ.evictVictim P cfg scope id) := by
  obtain ⟨hid, hrest⟩ := List.nodup_cons.mp h.1
  refine ⟨hrest, fun id' hid' => ?_⟩
  rw [Session.items_evictVictim_ne (show id ≠ id' from fun heq => hid (heq ▸ hid'))]
  exact h.2 id' (by simp [hid'])

theorem moveItems_spec (P : Platform) (cfg : Settings) {ids : List ItemId} (h : Movable target ids w.session) :
    Runs Later (ids.forM fun id => moveItem P id target arrival) w
      (fun _ w' => w'.session = w.session.moveItems P ids target arrival ∧ Trail P cfg w.session w'.session)
      (Fails w (Ends P cfg w.session)) := by
  refine forM_spec (Movable target) (fun id rest w h => ?_) (fun id rest σ h => ?_) h
  · obtain ⟨e, he, hne⟩ := h.2 id (by simp)
    simp only [Session.moveItem_of_live he]
    exact moveItem_spec he hne
  · obtain ⟨e, he, hne⟩ := h.2 id (by simp)
    exact ⟨Session.moveItem_of_live (P := P) he ▸ (Act.moved arrival he hne).trail, h.next P arrival⟩

theorem dropItems_spec (P : Platform) (cfg : Settings) {ids : List ItemId} (h : Droppable ids w.session) :
    Runs Later (ids.forM (dropItem P)) w
      (fun _ w' => w'.session = w.session.dropItems P ids ∧ Trail P cfg w.session w'.session)
      (Fails w (Ends P cfg w.session)) := by
  refine forM_spec Droppable (fun id rest w h => ?_) (fun id rest σ h => ?_) h
  · obtain ⟨e, he⟩ := h.2 id (by simp)
    simp only [Session.dropItem_of_live he]
    exact (dropItem_spec he).mono (fun _ _ _ h => h) fun _ _ _ h =>
      h.from (Std.Refl.refl w) fun _ hσ => Or.inl hσ
  · obtain ⟨e, he⟩ := h.2 id (by simp)
    exact ⟨Session.dropItem_of_live (P := P) he ▸ (Act.dropped he).trail, h.next P⟩

/-! ## Eviction -/

theorem evictVictim_spec (he : w.session.state.items[id]? = some e) (hs : e.scope = scope) :
    Runs Later (evictVictim P cfg scope id) w
      (fun _ w' => w'.session = w.session.evictVictim P cfg scope id)
      (Fails w fun σ => σ = w.session ∨ HalfMove P w.session σ) := by
  unfold evictVictim Session.evictVictim
  apply runs_getState
  cases hcolder : evictionTarget cfg scope e.arrival with
  | some colder =>
      simp only [he, hcolder]
      have hne : colder ≠ e.scope := hs ▸ (evictionTarget_lt hcolder).ne
      refine (moveItem_spec he hne).bind fun _ w' _ hw' => ?_
      refine Runs.update ⟨List.suffix_rfl, le_rfl⟩ ?_
      simp only [hw']
      rfl
  | none =>
      simp only [he, hcolder]
      exact (dropItem_spec he).mono (fun _ _ _ h => h) fun _ _ _ h =>
        h.from (Std.Refl.refl w) fun _ hσ => Or.inl hσ

theorem evictVictims_spec (P : Platform) (cfg : Settings) {ids : List ItemId} (h : Evictable scope ids w.session) :
    Runs Later (evictVictims P cfg scope ids) w
      (fun _ w' => w'.session = w.session.evictVictims P cfg scope ids ∧ Trail P cfg w.session w'.session)
      (Fails w (Ends P cfg w.session)) := by
  refine forM_spec (Evictable scope) (fun id rest w h => ?_) (fun id rest σ h => ?_) h
  · obtain ⟨e, he, hs⟩ := h.2 id (by simp)
    exact evictVictim_spec he hs
  · obtain ⟨e, he, hs⟩ := h.2 id (by simp)
    exact ⟨Trail.evictVictim he hs, h.next P cfg⟩

theorem evictable_chosenVictims (cfg : Settings) (σ : Session) (now : Instant) (scope : ContextScope) (count : Nat) :
    Evictable scope (chosenVictims cfg σ.state now scope count) (σ.selected cfg now scope count) :=
  ⟨chosenVictims_nodup, fun _ hid => State.scopeOf_eq_some.mp (scopeOf_of_mem_chosenVictims hid)⟩

theorem victims_spec {count : Nat} {E : Halt → World → Prop} :
    Runs Later (victims cfg scope count) w
      (fun ids w' => ∃ now, ids = chosenVictims cfg w.session.state now scope count ∧
        w'.session = w.session.selected cfg now scope count) E := by
  refine instantNow_spec.bind fun now w' _ hw' => ?_
  apply runs_getState
  apply runs_modifySession
  refine Runs.ret ⟨now, ?_, ?_⟩
  · rw [hw'.1]; rfl
  · simp only [hw'.1]; rfl

/-! ## Bounds -/

theorem enforceTier_spec (P : Platform) (cfg : Settings) (w : World) (scope : ContextScope) :
    Runs Later (enforceTier P cfg scope) w
      (fun _ w' => (∃ now, w'.session = w.session.enforceTier P cfg now scope) ∧ Trail P cfg w.session w'.session)
      (Fails w (Ends P cfg w.session)) := by
  unfold enforceTier Session.enforceTier Session.excess
  cases hbound : cfg.bounds.get scope with
  | none => exact Runs.ret ⟨⟨w.now, rfl⟩, .refl⟩
  | some bound =>
      apply runs_getState
      by_cases hlt : bound < w.session.state.itemCount scope
      · have hexcess : w.session.state.itemCount scope - bound ≠ 0 := by omega
        simp only [if_pos hlt, if_neg hexcess]
        refine victims_spec.bind fun ids w₁ hR₁ h₁ => ?_
        obtain ⟨now, rfl, hσ⟩ := h₁
        have hevictable := evictable_chosenVictims cfg w.session now scope
          (w.session.state.itemCount scope - bound)
        have hselect : Trail P cfg w.session w₁.session := hσ ▸ (Act.selected ..).trail
        refine (evictVictims_spec P cfg (hσ ▸ hevictable)).mono (fun _ w₂ _ h₂ => ?_) fun _ _ _ h => ?_
        · exact ⟨⟨now, by rw [h₂.1, hσ]⟩, hselect.trans h₂.2⟩
        · exact h.from hR₁ fun σ => hselect.then_ends
      · have hexcess : w.session.state.itemCount scope - bound = 0 := by omega
        simp only [if_neg hlt, if_pos hexcess]
        exact Runs.ret ⟨⟨w.now, rfl⟩, .refl⟩

theorem sweep_spec (P : Platform) (cfg : Settings) (w : World) (scopes : List ContextScope) :
    Runs Later (scopes.forM (enforceTier P cfg)) w
      (fun _ w' => Sweep P cfg scopes w.session w'.session ∧ Trail P cfg w.session w'.session)
      (Fails w (Ends P cfg w.session)) := by
  -- Invariant: a sweep of the remaining scopes from here completes a sweep of all of them.
  let I (rest : List ContextScope) (w' : World) : Prop := Later w w' ∧ Trail P cfg w.session w'.session ∧
    ∀ τ, Sweep P cfg rest w'.session τ → Sweep P cfg scopes w.session τ
  have hloop : Runs Later (scopes.forM (enforceTier P cfg)) w (fun _ w' => I [] w')
      (Fails w (Ends P cfg w.session)) := by
    refine Runs.forM (I := I) ?_ ⟨Std.Refl.refl w, .refl, fun _ h => h⟩
    rintro scope rest w₁ ⟨hR, htrail, hsweep⟩
    refine (enforceTier_spec P cfg w₁ scope).mono (fun _ w₂ hR₂ h₂ => ?_) fun _ w₂ _ h₂ => ?_
    · obtain ⟨⟨now, hσ⟩, htrail₂⟩ := h₂
      exact ⟨Trans.trans hR hR₂, htrail.trans htrail₂, fun τ h => hsweep τ (.cons now (hσ ▸ h))⟩
    · exact h₂.from hR fun σ => htrail.then_ends
  exact hloop.mono (fun _ _ _ h => ⟨h.2.2 _ .nil, h.2.1⟩) fun _ _ _ h => h

end

end Semanticore.Context
