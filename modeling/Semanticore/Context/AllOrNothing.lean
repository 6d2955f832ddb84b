import Semanticore.Context.Coherence
import Semanticore.Context.Lemmas.Attempts

/-!
# When a batch is all or nothing

`add_batch` enforces bounds after its own transaction has committed. A storage failure there is returned as an error, and
what was done until then stays.
-/

namespace Semanticore.Context
open Semanticore.Core Semanticore.Lib

/-- The index, `next_id`, the counters and the contents of the stores are the same. -/
def Unchanged (σ τ : Session) : Prop := τ.state = σ.state ∧ ∀ s q, q ∈ τ.stores.get s ↔ q ∈ σ.stores.get s

/-- The item is live in `scope` under the id, and its copy is stored there. -/
def Recorded (P : Platform) (scope : ContextScope) (σ : Session) (id : ItemId) (item : ContextItem) : Prop :=
  σ.state.place id = some (item, scope) ∧ ∀ q ∈ encode P id item, q ∈ σ.stores.get scope

/-- A call that adds a batch and fails changes nothing. One that returns has recorded every item under the returned ids,
in order, before it enforced bounds. -/
def AllOrNothing (P : Platform) (cfg : Settings) (w : World) (ev : Event) (scope : ContextScope)
    (items : List ContextItem) : Prop :=
  match (w.perform P cfg ev).1 with
  | .error _ => Unchanged w.session (w.step P cfg ev).session
  | .ok reply => ∃ now, let τ := (w.prepare ev).session.added P scope items now
      List.Forall₂ (Recorded P scope τ) reply.addedIds items ∧
        Sweep P cfg scope.andColder τ (w.step P cfg ev).session

/-! ## The first victim -/

/-- The first victim of a sweep, with the tier it is evicted from. -/
def Moment.firstVictim (cfg : Settings) (m : Moment) (scopes : List ContextScope) : Option (ContextScope × ItemId) :=
  (scopes.find? fun s => m.session.excess cfg s ≠ 0).bind fun s =>
    (chosenVictims cfg m.session.state m.reading s (m.session.excess cfg s)).head?.map fun id => (s, id)

/-- The first `j` transactions of a sweep change nothing: it makes none, or one that writes the first victim to a colder
store that has its copy already. -/
def Moment.Untouched (P : Platform) (cfg : Settings) (m : Moment) (scopes : List ContextScope) (j : Nat) : Prop :=
  j = 0 ∨ j = 1 ∧ ∃ s id e colder, m.firstVictim cfg scopes = some (s, id) ∧ m.session.state.items[id]? = some e ∧
    evictionTarget cfg s e.arrival = some colder ∧ ∀ q ∈ encode P id e.item, q ∈ m.session.stores.get colder

/-- How many items were demoted or dropped by enforcement so far. -/
def Session.evictions (σ : Session) : Nat := σ.state.stats.itemsDemoted + σ.state.stats.itemsEvicted

variable {P : Platform} {cfg : Settings} {σ τ ρ : Session} {m : Moment} {scope : ContextScope} {scopes : List ContextScope}
  {id : ItemId} {ids : List ItemId} {e : Entry} {items : List ContextItem} {now : Instant}

/-! ## Sessions that differ -/

theorem Unchanged.trans_iff (h : Unchanged σ τ) : Unchanged τ ρ ↔ Unchanged σ ρ := by
  unfold Unchanged at *
  rw [h.1]
  simp only [h.2]

theorem unchanged_added_nil : Unchanged σ (σ.added P scope [] now) := by
  refine ⟨?_, fun s q => ?_⟩
  · show State.mk σ.state.items (σ.state.nextId + UInt64.ofNat 0) _ = _
    simp [Session.batch_length]
  · simp [Session.mem_added, Session.batch, idRange]

theorem evictions_act (h : Act P cfg σ τ) : σ.evictions ≤ τ.evictions := by
  cases h with
  | moved arrival he hne => exact le_rfl
  | dropped he => exact Nat.le_succ _
  | removed he => exact le_rfl
  | counted promoted demoted => exact Nat.add_le_add_right (Nat.le_add_right ..) _
  | selected now scope count => exact le_rfl

theorem evictions_ends (h : Ends P cfg σ τ) : σ.evictions ≤ τ.evictions := by
  refine h.keeps (I := fun τ => σ.evictions ≤ τ.evictions) (fun hact h => h.trans (evictions_act hact)) ?_ le_rfl
  rintro _ _ ⟨_, _, _, _, _, rfl⟩ h
  exact h

theorem evictions_evictVictim (P : Platform) (cfg : Settings) (scope : ContextScope) (he : σ.state.items[id]? = some e) :
    (σ.evictVictim P cfg scope id).evictions = σ.evictions + 1 := by
  unfold Session.evictVictim
  simp only [he]
  cases evictionTarget cfg scope e.arrival with
  | some colder => exact Nat.add_right_comm ..
  | none => rfl

/-! ## The points of enforcement -/

theorem evictPoints_demoted {colder : ContextScope} (he : σ.state.items[id]? = some e)
    (hcolder : evictionTarget cfg scope e.arrival = some colder) :
    σ.evictPoints P cfg scope id = [σ, σ.copied P id e.item colder] := by
  simp only [Session.evictPoints, he, hcolder]

theorem evictPoints_dropped (he : σ.state.items[id]? = some e) (hnone : evictionTarget cfg scope e.arrival = none) :
    σ.evictPoints P cfg scope id = [σ] := by
  simp only [Session.evictPoints, he, hnone]

theorem evictions_evictVictims (h : Evictable scope ids σ) : σ.evictions ≤ (σ.evictVictims P cfg scope ids).evictions := by
  induction ids generalizing σ with
  | nil => exact le_rfl
  | cons id ids ih =>
      obtain ⟨e, he, -⟩ := h.2 id (by simp)
      exact (Nat.le_succ_of_le le_rfl).trans ((evictions_evictVictim P cfg scope he).symm.le.trans (ih (h.next P cfg)))

theorem evictions_of_mem_along (h : Evictable scope ids m.session) (hτ : τ ∈ along (Session.evictPoints P cfg scope)
    (Session.evictVictim P cfg scope) m.session ids) : m.session.evictions ≤ τ.evictions := by
  refine Attempts.of_mem (S := fun τ => m.session.evictions ≤ τ.evictions) (attempts_evictVictims h) (fun fates => ?_) τ hτ
  exact (evictVictims_spec P cfg h).mono (fun _ _ _ _ => trivial) fun _ _ _ hfails => evictions_ends hfails.left

theorem ends_of_mem_sweepPoints (hτ : τ ∈ Moment.sweepPoints P cfg scopes m) : Ends P cfg m.session τ :=
  Attempts.of_mem attempts_sweep
    (fun fates => (sweep_spec P cfg (m.world fates) scopes).mono (fun _ _ _ _ => trivial) fun _ _ _ h => h.left) τ hτ

/-- Past the points of its first victim, a sweep has evicted something. -/
theorem sweepPoints_first (h : m.firstVictim cfg scopes = some (scope, id)) :
    ∃ rest, Moment.sweepPoints P cfg scopes m =
        (m.session.selected cfg m.reading scope (m.session.excess cfg scope)).evictPoints P cfg scope id ++ rest ∧
      ∀ τ ∈ rest, m.session.evictions < τ.evictions := by
  induction scopes with
  | nil => cases h
  | cons s scopes ih =>
      unfold Moment.firstVictim at h
      by_cases hs : m.session.excess cfg s = 0
      · rw [List.find?_cons_of_neg (by simpa using hs)] at h
        have hpoints : Moment.sweepPoints P cfg (s :: scopes) m = Moment.sweepPoints P cfg scopes m := by
          simp only [Moment.sweepPoints, Moment.tierPoints, Moment.enforceTier, hs, if_true, List.nil_append]
        rw [hpoints]
        exact ih h
      · rw [List.find?_cons_of_pos (by simpa using hs), Option.bind_some, Option.map_eq_some_iff] at h
        obtain ⟨id', hid, heq⟩ := h
        obtain ⟨rfl, rfl⟩ := Prod.mk.inj heq
        obtain ⟨ids, hvictims⟩ := List.head?_eq_some_iff.mp hid
        have hevictable := evictable_chosenVictims cfg m.session m.reading s (m.session.excess cfg s)
        rw [hvictims] at hevictable
        obtain ⟨e, he, -⟩ := hevictable.2 id' (by simp)
        have hone := evictions_evictVictim P cfg s he
        have hnext := hevictable.next P cfg
        generalize hσ : (m.session.selected cfg m.reading s (m.session.excess cfg s)).evictVictim P cfg s id' = σ at hone hnext
        have hlt : m.session.evictions < σ.evictions := hone ▸ Nat.lt_succ_self _
        refine ⟨along (Session.evictPoints P cfg s) (Session.evictVictim P cfg s) σ ids ++
          Moment.sweepPoints P cfg scopes (m.enforceTier P cfg s), ?_, fun τ hτ => ?_⟩
        · simp only [Moment.sweepPoints, Moment.tierPoints, if_neg hs, hvictims, along, hσ, List.append_assoc]
        · rcases List.mem_append.mp hτ with hτ | hτ
          · exact hlt.trans_le (evictions_of_mem_along (m := m.tick.put σ) hnext hτ)
          · have henforce : (m.enforceTier P cfg s).session = σ.evictVictims P cfg s ids := by
              simp only [Moment.enforceTier, Session.enforceTier, if_neg hs, hvictims, ← hσ]
              rfl
            have hrest := evictions_ends (ends_of_mem_sweepPoints hτ)
            rw [henforce] at hrest
            exact hlt.trans_le ((evictions_evictVictims hnext).trans hrest)

theorem firstVictim_live (h : m.firstVictim cfg scopes = some (scope, id)) :
    ∃ e : Entry, m.session.state.items[id]? = some e := by
  obtain ⟨s, -, hid⟩ := Option.bind_eq_some_iff.mp h
  obtain ⟨id', hhead, heq⟩ := Option.map_eq_some_iff.mp hid
  obtain ⟨rfl, rfl⟩ := Prod.mk.inj heq
  obtain ⟨e, he, -⟩ := State.scopeOf_eq_some.mp (scopeOf_of_mem_chosenVictims (List.mem_of_head? hhead))
  exact ⟨e, he⟩

/-- A sweep without a victim issues no transaction. -/
theorem sweepPoints_none (h : m.firstVictim cfg scopes = none) : Moment.sweepPoints P cfg scopes m = [] := by
  induction scopes with
  | nil => rfl
  | cons s scopes ih =>
      unfold Moment.firstVictim at h
      by_cases hs : m.session.excess cfg s = 0
      · rw [List.find?_cons_of_neg (by simpa using hs)] at h
        simp only [Moment.sweepPoints, Moment.tierPoints, Moment.enforceTier, hs, if_true, List.nil_append]
        exact ih h
      · -- A tier over its bound has a victim.
        rw [List.find?_cons_of_pos (by simpa using hs), Option.bind_some, Option.map_eq_none_iff,
          List.head?_eq_none_iff] at h
        have hlength := congrArg List.length h
        have hexcess : m.session.excess cfg s ≤ m.session.state.itemCount s := by
          unfold Session.excess
          split
          · exact Nat.zero_le _
          · exact Nat.sub_le ..
        rw [chosenVictims_length, List.length_nil] at hlength
        omega

theorem untouched_of_live {j : Nat} (hfirst : m.firstVictim cfg scopes = some (scope, id))
    (he : m.session.state.items[id]? = some e) : m.Untouched P cfg scopes j ↔
      j = 0 ∨ j = 1 ∧ ∃ colder, evictionTarget cfg scope e.arrival = some colder ∧
        ∀ q ∈ encode P id e.item, q ∈ m.session.stores.get colder := by
  refine or_congr_right (and_congr_right fun _ => ?_)
  constructor
  · rintro ⟨_, _, _, colder, hfirst', he', hcolder⟩
    cases hfirst.symm.trans hfirst'
    cases he.symm.trans he'
    exact ⟨colder, hcolder⟩
  · rintro ⟨colder, hcolder⟩
    exact ⟨_, _, _, colder, hfirst, he, hcolder⟩

theorem unchanged_selected {s : ContextScope} {count : Nat} : Unchanged σ (σ.selected cfg now s count) :=
  ⟨rfl, fun _ _ => Iff.rfl⟩

theorem unchanged_copied {target : ContextScope} : Unchanged σ (σ.copied P id e.item target) ↔
    ∀ q ∈ encode P id e.item, q ∈ σ.stores.get target := by
  constructor
  · intro h q hq
    exact (h.2 target q).mp (Session.mem_copied.mpr (Or.inr ⟨rfl, hq⟩))
  · refine fun h => ⟨rfl, fun s q => ?_⟩
    rw [Session.mem_copied, or_iff_left_iff_imp]
    rintro ⟨rfl, hq⟩
    exact h q hq

/-- Where in a sweep a failure leaves no trace. -/
theorem unchanged_sweepPoints {j : Nat} (hτ : (Moment.sweepPoints P cfg scopes m)[j]? = some τ) :
    Unchanged m.session τ ↔ m.Untouched P cfg scopes j := by
  cases hfirst : m.firstVictim cfg scopes with
  | none =>
      rw [sweepPoints_none hfirst] at hτ
      cases hτ
  | some first =>
      obtain ⟨s, id⟩ := first
      obtain ⟨rest, hpoints, hrest⟩ := sweepPoints_first (P := P) hfirst
      obtain ⟨e, he⟩ := firstVictim_live hfirst
      have hlater {k : Nat} (hk : rest[k]? = some τ) : ¬ Unchanged m.session τ := fun h => by
        have hlt := hrest τ (List.mem_of_getElem? hk)
        rw [Session.evictions, Session.evictions, h.1] at hlt
        exact lt_irrefl _ hlt
      have hlive : (m.session.selected cfg m.reading s (m.session.excess cfg s)).state.items[id]? = some e := he
      rw [untouched_of_live hfirst he]
      rw [hpoints] at hτ
      cases hcolder : evictionTarget cfg s e.arrival with
      | some colder =>
          rw [evictPoints_demoted hlive hcolder] at hτ
          rcases j with _ | _ | j
          · cases hτ
            simp [unchanged_selected]
          · cases hτ
            rw [← unchanged_selected.trans_iff, unchanged_copied]
            simp [Session.selected]
          · simp [hlater hτ]
      | none =>
          rw [evictPoints_dropped hlive hcolder] at hτ
          rcases j with _ | j
          · cases hτ
            simp [unchanged_selected]
          · simp [hlater hτ]

/-! ## Adding -/

theorem recorded_batch {ids : List ItemId} (hadm : Admissible σ items) (hids : ids = idRange σ.state.nextId items.length) :
    List.Forall₂ (Recorded P scope (σ.added P scope items now)) ids items := by
  rw [List.forall₂_iff_zip]
  subst hids
  refine ⟨idRange_length .., fun {id item} hp => ⟨Session.place_added_of_mem hadm.room hp, fun q hq => ?_⟩⟩
  exact Session.mem_added.mpr (Or.inr ⟨rfl, _, hp, hq⟩)

/-- A point of the enforcement is as before the call only if the batch is empty. -/
theorem unchanged_of_added {j : Nat} (hadm : Admissible m.session items)
    (hτ : (Moment.sweepPoints P cfg scopes (m.added P scope items))[j]? = some τ) :
    Unchanged m.session τ ↔ items = [] ∧ (m.added P scope items).Untouched P cfg scopes j := by
  by_cases hempty : items = []
  · subst hempty
    have hsame : Unchanged m.session (m.added P scope []).session := unchanged_added_nil
    rw [← hsame.trans_iff, unchanged_sweepPoints hτ]
    simp
  · refine ⟨fun h => ?_, fun h => (hempty h.1).elim⟩
    have hnext := nextId_ends (ends_of_mem_sweepPoints (List.mem_of_getElem? hτ))
    have hadded : (m.added P scope items).session.state.nextId.toNat = m.session.state.nextId.toNat + items.length :=
      Session.nextId_added hadm.room
    have hpos := List.length_pos_of_ne_nil hempty
    rw [← hnext, h.1] at hadded
    omega

/-- A call that adds a batch is all or nothing exactly if the batch is refused, its own transaction fails, no transaction
of the call fails, or an empty batch is interrupted before its enforcement has changed anything. -/
theorem all_or_nothing_iff (P : Platform) (cfg : Settings) (w : World) (ev : Event) (scope : ContextScope)
    (items : List ContextItem) (hop : ev.op.batch = some (scope, items)) :
    let m := (w.prepare ev).moment.added P scope items
    AllOrNothing P cfg w ev scope items ↔ ¬ Admissible w.session items ∨ ∀ j, firstFail ev.fates = some j →
      j = 0 ∨ (Moment.sweepPoints P cfg scope.andColder m).length < j ∨
        items = [] ∧ m.Untouched P cfg scope.andColder (j - 1) := by
  intro m
  have hprep : Admissible w.session items ↔ Admissible (w.prepare ev).moment.session items :=
    ⟨fun h => ⟨h.valid, h.room⟩, fun h => ⟨h.valid, h.room⟩⟩
  have hsame (τ : Session) : Unchanged w.session τ ↔ Unchanged (w.prepare ev).moment.session τ := Iff.rfl
  by_cases hadm : Admissible (w.prepare ev).moment.session items
  · obtain ⟨reply, hids, hattempts⟩ := attempts_added P cfg hop hadm
    unfold AllOrNothing
    constructor
    · intro h
      refine Or.inr fun j hj => ?_
      rcases j with _ | j
      · exact Or.inl rfl
      cases hτ : (Moment.sweepPoints P cfg scope.andColder m)[j]? with
      | none => exact Or.inr (Or.inl (Nat.lt_succ_of_le (List.getElem?_eq_none_iff.mp hτ)))
      | some τ =>
          obtain ⟨hresult, hsession⟩ := hattempts.perform_fails (stopped_eq_some.mpr ⟨j + 1, hj, hτ⟩)
          rw [hresult, hsession] at h
          exact Or.inr (Or.inr ((unchanged_of_added hadm hτ).mp h))
    · intro h
      cases hs : stopped ev.fates ((w.prepare ev).moment.session :: Moment.sweepPoints P cfg scope.andColder m) with
      | some τ =>
          obtain ⟨hresult, hsession⟩ := hattempts.perform_fails hs
          obtain ⟨j, hj, hτ⟩ := stopped_eq_some.mp hs
          rw [hresult, hsession]
          rcases j with _ | j
          · cases hτ
            exact ⟨rfl, fun _ _ => Iff.rfl⟩
          rcases h.resolve_left (not_not.mpr (hprep.mpr hadm)) _ hj with hzero | hlate | hempty
          · cases hzero
          · have hpoint : (Moment.sweepPoints P cfg scope.andColder m)[j]? = some τ := hτ
            exact absurd (List.getElem?_eq_some_iff.mp hpoint).1 (not_lt.mpr (Nat.le_of_lt_succ hlate))
          · exact (unchanged_of_added hadm hτ).mpr hempty
      | none =>
          obtain ⟨hresult, hsession⟩ := hattempts.perform_ends hs
          rw [hresult, hsession]
          exact ⟨_, recorded_batch hadm hids, sweep_of_moment P cfg m scope.andColder⟩
  · obtain ⟨halt, hattempts⟩ := attempts_add_inadmissible P cfg hop hadm
    obtain ⟨hresult, hsession⟩ := hattempts.perform_ends (stopped_eq_none.mpr fun _ _ => Nat.zero_le _)
    refine ⟨fun _ => Or.inl fun h => hadm (hprep.mp h), fun _ => ?_⟩
    unfold AllOrNothing
    rw [hresult, hsession]
    exact ⟨rfl, fun _ _ => Iff.rfl⟩

/-- The call's own transaction fails. -/
theorem all_or_nothing_iff_own_failure :
    AllOrNothing notePlatform (manual (some 1)) World.start ⟨.add .minor note, [.fail], []⟩ .minor [note] := by
  refine (all_or_nothing_iff notePlatform (manual (some 1)) World.start ⟨.add .minor note, [.fail], []⟩ .minor [note]
    rfl).mpr (Or.inr fun j hj => Or.inl ?_)
  cases hj
  rfl

/-- An `add` whose enforcement fails returns an error, and its item is live. -/
theorem add_fails_and_adds :
    let w := World.start.step notePlatform (manual (some 1)) ⟨.add .minor note, [], []⟩
    let ev : Event := ⟨.add .minor note, [.commit, .fail], []⟩
    (w.perform notePlatform (manual (some 1)) ev).1 = .error (.err .storage) ∧
      (w.step notePlatform (manual (some 1)) ev).session.state.items.keys = [⟨0⟩, ⟨1⟩] ∧
      ¬ AllOrNothing notePlatform (manual (some 1)) w ev .minor [note] := by
  intro w ev
  have hresult : (w.perform notePlatform (manual (some 1)) ev).1 = .error (.err .storage) := rfl
  have hkeys : (w.step notePlatform (manual (some 1)) ev).session.state.items.keys = [⟨0⟩, ⟨1⟩] := by decide +kernel
  have hbefore : w.session.state.items.keys = [⟨0⟩] := by decide +kernel
  refine ⟨hresult, hkeys, fun h => ?_⟩
  unfold AllOrNothing at h
  rw [hresult] at h
  rw [h.1, hbefore] at hkeys
  cases hkeys

end Semanticore.Context
