import Semanticore.Context.Lemmas.Checks
import Semanticore.Context.Lemmas.Spec

/-!
# Relations that programs keep

A program keeps a preorder on Sessions if wherever it ends, by a return or a failure, its Session is related to the
one it started from.
-/

namespace Semanticore.Context
open Semanticore.Core Semanticore.Lib

/-- The relation between the Sessions of two worlds. -/
def Over (R : Session → Session → Prop) (w w' : World) : Prop := R w.session w'.session

instance {R : Session → Session → Prop} [Std.Refl R] : Std.Refl (Over R) := ⟨fun w => Std.Refl.refl w.session⟩

instance {R : Session → Session → Prop} [IsTrans Session R] : IsTrans World (Over R) :=
  ⟨fun w w' w'' h h' => IsTrans.trans w.session w'.session w''.session h h'⟩

def Keeps {α : Type} (R : Session → Session → Prop) (x : SessionM α) (w : World) : Prop :=
  Runs (Over R) x w (fun _ _ => True) fun _ _ => True

variable {P : Platform} {cfg : Settings} {R : Session → Session → Prop} {α β : Type} {w : World}

theorem Runs.keeps {x : SessionM α} {Q : α → World → Prop} {E : Halt → World → Prop} (h : Runs (Over R) x w Q E) :
    Keeps R x w := h.mono (fun _ _ _ _ => trivial) fun _ _ _ _ => trivial

/-- A program keeps what its specification implies wherever it can end. -/
theorem Keeps.of_runs {x : SessionM α} {Q : α → World → Prop} {E : Halt → World → Prop} (h : Runs Later x w Q E)
    (hQ : ∀ a w', Q a w' → R w.session w'.session) (hE : ∀ h w', E h w' → R w.session w'.session) : Keeps R x w := by
  unfold Keeps Runs at *
  rcases hx : (x.run.run w : Except Halt α × World) with ⟨e | a, w'⟩ <;> rw [hx] at h
  · exact ⟨hE _ _ h.2, trivial⟩
  · exact ⟨hQ _ _ h.2, trivial⟩

theorem Keeps.step {x : SessionM α} (h : Keeps R x w) : R w.session (x.run.run w).2.session := by
  unfold Keeps Runs at h
  rcases hx : (x.run.run w : Except Halt α × World) with ⟨e | a, w'⟩ <;> rw [hx] at h <;> exact h.1

/-! ## Primitives -/

theorem keeps_modify {f : Session → Session} (h : R w.session (f w.session)) : Keeps R (modifySession f) w :=
  Runs.update h trivial

theorem Keeps.bind {x : SessionM α} {f : α → SessionM β} [IsTrans Session R] (hx : Keeps R x w)
    (hf : ∀ a w', Keeps R (f a) w') : Keeps R (x >>= f) w := Runs.bind hx fun a w' _ _ => hf a w'

theorem Keeps.map {x : SessionM α} {f : α → β} (h : Keeps R x w) : Keeps R (f <$> x) w := Runs.map h

variable [Std.Refl R]

theorem keeps_ret {a : α} : Keeps R (pure a) w := Runs.ret trivial

theorem keeps_throw {h : Halt} : Keeps R (throw h : SessionM α) w := Runs.exit trivial

theorem keeps_throw_bind {h : Halt} {f : β → SessionM α} : Keeps R (throw h >>= f) w :=
  ⟨Std.Refl.refl w.session, trivial⟩

theorem liftExcept_frame {x : Except SessionError α} :
    Runs (Over R) (liftExcept x) w (fun _ w' => w' = w) fun _ _ => True := by
  cases x with
  | ok a => exact Runs.ret rfl
  | error e => exact Runs.exit trivial

theorem checkedAdd_frame {a : UInt64} {k : Nat} : Runs (Over R) (checkedAdd a k) w
    (fun _ w' => w' = w ∧ a.toNat + k < 2 ^ 64) fun _ _ => True := by
  unfold checkedAdd
  split
  · rename_i hroom
    exact Runs.ret ⟨rfl, hroom⟩
  · exact Runs.exit trivial

theorem transaction_frame : Runs (Over R) transaction w (fun _ w' => w'.session = w.session) fun _ _ => True := by
  rcases w with ⟨σ, fates, elapsed, now⟩
  cases fates with
  | nil => exact ⟨Std.Refl.refl σ, rfl⟩
  | cons fate fates =>
      cases fate with
      | commit => exact ⟨Std.Refl.refl σ, rfl⟩
      | fail => exact ⟨Std.Refl.refl σ, trivial⟩

theorem instantNow_frame : Runs (Over R) instantNow w (fun _ w' => w'.session = w.session) fun _ _ => True := by
  rcases w with ⟨σ, fates, elapsed, now⟩
  cases elapsed with
  | nil => exact ⟨Std.Refl.refl σ, rfl⟩
  | cons d ds => exact ⟨Std.Refl.refl σ, rfl⟩

theorem checkInScope_frame {st : State} {ids : List ItemId} {scope : ContextScope} :
    Runs (Over R) (liftExcept (checkInScope st ids scope)) w
      (fun us w' => w' = w ∧ us = ids.eraseDups ∧ ∀ id ∈ ids, st.scopeOf id = some scope) fun _ _ => True := by
  cases hcheck : checkInScope st ids scope with
  | error e => exact Runs.exit trivial
  | ok us => exact Runs.ret ⟨rfl, checkInScope_ok.mp hcheck⟩

variable [IsTrans Session R]

/-- The body of a loop is only ever run on an element of the list, and where the relation leads. -/
theorem Keeps.loop {f : β → SessionM PUnit} {l : List β}
    (h : ∀ b ∈ l, ∀ w', R w.session w'.session → Keeps R (f b) w') : Keeps R (l.forM f) w := by
  have hloop : Runs (Over R) (l.forM f) w (fun _ w' => R w.session w'.session) fun _ _ => True := by
    refine (Runs.forM (I := fun rest (w' : World) => (∀ b ∈ rest, b ∈ l) ∧ R w.session w'.session)
      (fun b rest w' hI => ?_) ⟨fun _ hb => hb, Std.Refl.refl w.session⟩).mono (fun _ _ _ hI => hI.2) fun _ _ _ h => h
    refine (h b (hI.1 b (by simp)) w' hI.2).mono (fun _ w'' hR _ => ?_) fun _ _ _ h => h
    exact ⟨fun b' hb' => hI.1 b' (by simp [hb']), IsTrans.trans _ _ _ hI.2 hR⟩
  exact Runs.keeps hloop

theorem Keeps.forM {f : β → SessionM PUnit} (h : ∀ b w, Keeps R (f b) w) {l : List β} {w : World} :
    Keeps R (l.forM f) w := Keeps.loop fun b _ w' _ => h b w'

theorem Keeps.mapM {f : β → SessionM α} (h : ∀ b w, Keeps R (f b) w) {l : List β} {w : World} :
    Keeps R (l.mapM f) w :=
  Runs.keeps (Runs.mapM (I := fun _ _ => True) (C := fun _ _ => True)
    (fun b _ w _ => (h b w).mono (fun _ _ _ _ => ⟨trivial, trivial⟩) fun _ _ _ h => h) trivial)

/-! ## Programs -/

theorem withWrite_frame {scope : ContextScope} (hcommit : ∀ (σ : Session) after, R σ (σ.commit scope after))
    {f : Store → Store} : Runs (Over R) (withWrite scope f) w
      (fun _ w' => w'.session = w.session.commit scope (f (w.session.stores.get scope))) fun _ _ => True := by
  refine transaction_frame.bind fun _ w' _ hw' => ?_
  rw [← hw']
  exact Runs.update (hcommit ..) rfl

theorem victims_frame (hselected : ∀ σ now scope count, R σ (Session.selected cfg σ now scope count))
    {scope : ContextScope} {count : Nat} : Runs (Over R) (victims cfg scope count) w
      (fun ids w' => Evictable scope ids w'.session) fun _ _ => True := by
  unfold victims
  refine Runs.bind instantNow_frame fun now w' _ _ => ?_
  apply runs_getState
  have hnote : Runs (Over R) (modifySession (·.note (.selected w'.session.state scope count
      (chosenVictims cfg w'.session.state now scope count)))) w'
      (fun _ w'' => w''.session = w'.session.selected cfg now scope count) fun _ _ => True :=
    Runs.update (hselected w'.session now scope count) rfl
  refine Runs.bind hnote fun _ w'' _ h => Runs.ret ?_
  rw [h]
  exact evictable_chosenVictims cfg w'.session now scope count

/-- A loop over items of a scope whose body leaves the entries of all other items alone. -/
theorem keeps_each {f : ItemId → SessionM PUnit} {scope : ContextScope} {ids : List ItemId}
    (hkeeps : ∀ id w (e : Entry), w.session.state.items[id]? = some e → e.scope = scope → Keeps R (f id) w)
    (hothers : ∀ id w (e : Entry), w.session.state.items[id]? = some e → e.scope = scope →
      Runs Later (f id) w (fun _ w' => ∀ id', id ≠ id' → w'.session.state.items[id']? = w.session.state.items[id']?)
        fun _ _ => True)
    (h : Evictable scope ids w.session) : Keeps R (ids.forM f) w := by
  have hloop : Runs (Over R) (ids.forM f) w (fun _ w' => Evictable scope [] w'.session) fun _ _ => True := by
    refine Runs.forM (I := fun rest (w' : World) => Evictable scope rest w'.session) (fun id rest w' hrest => ?_) h
    obtain ⟨e, he, hs⟩ := hrest.2 id (by simp)
    obtain ⟨hid, hnodup⟩ := List.nodup_cons.mp hrest.1
    refine ((hkeeps id w' e he hs).and (hothers id w' e he hs)).mono (fun _ w'' _ h' => ⟨hnodup, fun id' hid' => ?_⟩)
      fun _ _ _ _ => trivial
    rw [h'.2.2 id' fun heq => hid (heq ▸ hid')]
    exact hrest.2 id' (by simp [hid'])
  exact Runs.keeps hloop

/-- The eviction of victims keeps what the eviction of one of them keeps. -/
theorem keeps_evictVictims {scope : ContextScope} {ids : List ItemId}
    (hevict : ∀ id w (e : Entry), w.session.state.items[id]? = some e → e.scope = scope →
      Keeps R (evictVictim P cfg scope id) w)
    (h : Evictable scope ids w.session) : Keeps R (evictVictims P cfg scope ids) w := by
  refine keeps_each hevict (fun id w' e he hs => ?_) h
  refine (evictVictim_spec he hs).mono (fun _ w'' _ hw'' id' hne => ?_) fun _ _ _ _ => trivial
  rw [hw'']
  exact Session.items_evictVictim_ne hne

/-- Enforcement keeps what the eviction of one victim keeps. -/
theorem keeps_sweep {scopes : List ContextScope}
    (hselected : ∀ σ now scope count, R σ (Session.selected cfg σ now scope count))
    (hevict : ∀ scope ∈ scopes, ∀ id w (e : Entry), w.session.state.items[id]? = some e → e.scope = scope →
      Keeps R (evictVictim P cfg scope id) w) : Keeps R (scopes.forM (enforceTier P cfg)) w := by
  refine Keeps.loop fun s hs w' _ => ?_
  unfold enforceTier
  split
  · exact keeps_ret
  · apply runs_getState
    dsimp only
    split
    · exact Runs.bind (victims_frame hselected) fun ids w' _ h => keeps_evictVictims (hevict s hs) h
    · exact keeps_ret

/-! ## Operations

Each keeps what its parts keep. -/

theorem evictable_eraseDups {σ : Session} {ids : List ItemId} {scope : ContextScope}
    (h : ∀ id ∈ ids, σ.state.scopeOf id = some scope) : Evictable scope ids.eraseDups σ :=
  ⟨nodup_eraseDups ids, fun id hid => State.scopeOf_eq_some.mp (h id (List.mem_eraseDups.mp hid))⟩

/-- Listed items of a scope move to another one. -/
theorem keeps_moves {ids : List ItemId} {scope target : ContextScope} {arrival : Arrival} (hne : target ≠ scope)
    (hmove : ∀ id w (e : Entry), w.session.state.items[id]? = some e → e.scope = scope →
      Keeps R (moveItem P id target arrival) w)
    (hall : ∀ id ∈ ids, w.session.state.scopeOf id = some scope) :
    Keeps R (ids.eraseDups.forM fun id => moveItem P id target arrival) w := by
  refine keeps_each hmove (fun id w' e he hs => ?_) (evictable_eraseDups hall)
  refine (moveItem_spec he (hs ▸ hne)).mono (fun _ w'' _ hw'' id' hne => ?_) fun _ _ _ _ => trivial
  rw [hw'', Session.items_moved, if_neg hne]

theorem keeps_addBatch {scope : ContextScope} {items : List ContextItem}
    (hcommit : ∀ (σ : Session) after, R σ (σ.commit scope after))
    (hadd : ∀ (σ : Session) nextId now, σ.state = w.session.state →
      w.session.state.nextId.toNat + items.length < 2 ^ 64 →
        R σ (σ.mapState (·.addBatch scope (σ.batch items) nextId now)))
    (henforce : ∀ w, Keeps R (enforceBounds P cfg scope) w) : Keeps R (addBatch P cfg scope items) w := by
  unfold addBatch
  apply runs_getState
  have hchecks : Runs (Over R) (items.forM fun item => liftExcept (validate w.session.state item)) w
      (fun _ w' => w' = w) fun _ _ => True :=
    Runs.forM (I := fun _ w' => w' = w) (fun item rest w' h => h ▸ liftExcept_frame) rfl
  refine Runs.bind hchecks fun _ w₀ _ h₀ => ?_
  subst h₀
  refine Runs.bind checkedAdd_frame fun nextId w₁ _ h₁ => ?_
  obtain ⟨rfl, hroom⟩ := h₁
  refine Runs.bind (withWrite_frame hcommit) fun _ w₂ _ h₂ => ?_
  refine Runs.bind instantNow_frame fun now w₃ _ h₃ => ?_
  have hstate : w₃.session.state = w₁.session.state := by rw [h₃, h₂]; rfl
  have hbatch : (idRange w₁.session.state.nextId items.length).zip items = w₃.session.batch items := by
    rw [Session.batch, hstate]
  rw [hbatch]
  exact (keeps_modify (hadd w₃.session nextId now hstate hroom)).bind fun _ _ => (henforce _).bind fun _ _ => keeps_ret

variable (hcount : ∀ (σ : Session) promoted demoted, R σ (σ.counted 0 promoted demoted))

include hcount

theorem keeps_promote {ids : List ItemId} {source target : ContextScope}
    (hmove : source < target → ∀ id w (e : Entry), w.session.state.items[id]? = some e → e.scope = source →
      Keeps R (moveItem P id target .promoted) w)
    (henforce : ∀ w, Keeps R (enforceBounds P cfg target) w) : Keeps R (promote P cfg ids source target) w := by
  unfold promote
  by_cases hlt : target < source
  · simp only [if_pos hlt]
    exact keeps_throw_bind
  simp only [if_neg hlt]
  apply runs_getState
  refine Runs.bind checkInScope_frame fun us w₀ _ h₀ => ?_
  obtain ⟨rfl, rfl, hall⟩ := h₀
  by_cases heq : target = source
  · simp only [if_pos heq]
    exact keeps_ret
  simp only [if_neg heq]
  refine (keeps_moves heq (hmove (lt_of_le_of_ne (not_lt.mp hlt) (Ne.symm heq))) hall).bind fun _ w₁ => ?_
  exact (keeps_modify (hcount w₁.session _ 0)).bind fun _ _ => (henforce _).bind fun _ _ => keeps_ret

theorem keeps_evict {scope : ContextScope} {criteria : EvictionCriteria}
    (hselected : ∀ σ now scope count, R σ (Session.selected cfg σ now scope count))
    (hdrop : ∀ id w (e : Entry), w.session.state.items[id]? = some e → e.scope = scope → Keeps R (dropItem P id) w)
    (hmove : ∀ target < scope, ∀ id w (e : Entry), w.session.state.items[id]? = some e → e.scope = scope →
      Keeps R (moveItem P id target .demoted) w)
    (hevict : ∀ id w (e : Entry), w.session.state.items[id]? = some e → e.scope = scope →
      Keeps R (evictVictim P cfg scope id) w)
    (henforce : ∀ target < scope, ∀ w, Keeps R (enforceBounds P cfg target) w) :
    Keeps R (evict P cfg scope criteria) w := by
  cases criteria with
  | items ids =>
      unfold evict
      apply runs_getState
      refine Runs.bind checkInScope_frame fun us w₀ _ h₀ => ?_
      obtain ⟨rfl, rfl, hall⟩ := h₀
      refine Keeps.bind (keeps_each hdrop (fun id w' e he hs => ?_) (evictable_eraseDups hall)) fun _ _ => keeps_ret
      refine (dropItem_spec he).mono (fun _ w'' _ hw'' id' hne => ?_) fun _ _ _ _ => trivial
      rw [hw'', Session.items_dropped, if_neg hne]
  | demote ids target =>
      unfold evict
      by_cases hle : scope ≤ target
      · simp only [if_pos hle]
        exact keeps_throw_bind
      simp only [if_neg hle]
      have hlt : target < scope := not_le.mp hle
      apply runs_getState
      refine Runs.bind checkInScope_frame fun us w₀ _ h₀ => ?_
      obtain ⟨rfl, rfl, hall⟩ := h₀
      refine (keeps_moves hlt.ne (hmove target hlt) hall).bind fun _ w₁ => ?_
      exact (keeps_modify (hcount w₁.session 0 _)).bind fun _ _ => (henforce target hlt _).bind fun _ _ => keeps_ret
  | policy count =>
      unfold evict
      refine Runs.bind (victims_frame hselected) fun us w₀ _ h₀ => ?_
      refine (keeps_evictVictims hevict h₀).bind fun _ w₁ => ?_
      cases hcolder : scope.colder with
      | none => exact keeps_ret
      | some colder => exact (henforce colder (ContextScope.colder_lt hcolder) _).bind fun _ _ => keeps_ret

end Semanticore.Context
