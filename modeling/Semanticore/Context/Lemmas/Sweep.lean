import Semanticore.Context.Lemmas.Runs

/-!
# Tiers under eviction

Which items are in which tier after the loops of an operation, and what bound enforcement leaves of each tier.
-/

namespace Semanticore.Context
open Semanticore.Core

variable {P : Platform} {cfg : Settings} {σ τ : Session} {st st' : State} {ids : List ItemId} {id : ItemId}
  {scope target s : ContextScope} {arrival : Arrival} {now : Instant}

/-! ## Tiers as sets -/

namespace State

/-- The ids of the live items of a scope. -/
def pool (st : State) (s : ContextScope) : Finset ItemId := ((st.inScope s).map (·.1)).toFinset

@[simp] theorem mem_pool : id ∈ st.pool s ↔ st.scopeOf id = some s := by
  rw [pool, List.mem_toFinset, mem_inScope_ids]

theorem coe_pool (st : State) (s : ContextScope) : (st.pool s : Set ItemId) = {id | st.scopeOf id = some s} :=
  Set.ext fun _ => mem_pool

theorem card_pool (st : State) (s : ContextScope) : (st.pool s).card = st.itemCount s := by
  rw [pool, List.toFinset_card_of_nodup (inScope_nodup st s), List.length_map]
  rfl

theorem itemCount_le (h : ∀ id, st'.scopeOf id = some s → st.scopeOf id = some s) : st'.itemCount s ≤ st.itemCount s := by
  rw [← card_pool, ← card_pool]
  exact Finset.card_le_card fun id hid => mem_pool.mpr (h id (mem_pool.mp hid))

end State

/-! ## Scopes after a loop -/

theorem scopeOf_moveItems (hnodup : ids.Nodup) : (σ.moveItems P ids target arrival).state.scopeOf id =
    if id ∈ ids then (σ.state.scopeOf id).map fun _ => target else σ.state.scopeOf id := by
  unfold State.scopeOf
  rw [Session.items_moveItems hnodup]
  split
  · simp [Function.comp_def]
  · rfl

theorem scopeOf_dropItems (hnodup : ids.Nodup) : (σ.dropItems P ids).state.scopeOf id =
    if id ∈ ids then none else σ.state.scopeOf id := by
  unfold State.scopeOf
  rw [Session.items_dropItems hnodup]
  split <;> rfl

/-- An evicted item is gone or one tier colder. -/
theorem Entry.evicted_colder {e e' : Entry} (h : e.evicted cfg scope = some e') : scope.colder = some e'.scope := by
  obtain ⟨colder, hcolder, rfl⟩ := Option.map_eq_some_iff.mp h
  unfold evictionTarget at hcolder
  split at hcolder
  · cases hcolder
  · exact hcolder
  · split at hcolder
    · exact hcolder
    · cases hcolder
    · cases hcolder

theorem scopeOf_evictVictims (hnodup : ids.Nodup) (hid : id ∈ ids)
    (h : (σ.evictVictims P cfg scope ids).state.scopeOf id = some s) : scope.colder = some s := by
  obtain ⟨e', he', rfl⟩ := State.scopeOf_eq_some.mp h
  rw [Session.items_evictVictims hnodup, if_pos hid] at he'
  obtain ⟨e, -, hevicted⟩ := Option.bind_eq_some_iff.mp he'
  exact Entry.evicted_colder hevicted

theorem scopeOf_evictVictims_of_not_mem (hnodup : ids.Nodup) (hid : id ∉ ids) :
    (σ.evictVictims P cfg scope ids).state.scopeOf id = σ.state.scopeOf id := by
  unfold State.scopeOf
  rw [Session.items_evictVictims hnodup, if_neg hid]

theorem scopeOf_answered (σ : Session) (now : Instant) (ids : List ItemId) (id : ItemId) :
    (σ.answered cfg now ids).state.scopeOf id = σ.state.scopeOf id := by
  rw [State.scopeOf_eq_place, State.scopeOf_eq_place, (Session.answered_same σ now ids).1]

theorem scopeOf_added {items : List ContextItem} (hadm : Admissible σ items) (hne : s ≠ scope)
    (h : (σ.added P scope items now).state.scopeOf id = some s) : σ.state.scopeOf id = some s := by
  rw [State.scopeOf_eq_place] at h ⊢
  by_cases hid : id ∈ (σ.batch items).map Prod.fst
  · obtain ⟨⟨id', item⟩, hp, rfl⟩ := List.mem_map.mp hid
    rw [Session.place_added_of_mem hadm.room hp] at h
    exact (hne (Option.some.inj h).symm).elim
  · rwa [Session.place_added_of_not_mem hadm.room hid] at h

/-! ## One tier -/

/-- A bounded tier is within its bound. -/
def Within (cfg : Settings) (st : State) (s : ContextScope) : Prop :=
  ∀ bound, cfg.bounds.get s = some bound → st.itemCount s ≤ bound

theorem Within.mono (h : Within cfg st s) (hsub : ∀ id, st'.scopeOf id = some s → st.scopeOf id = some s) :
    Within cfg st' s := fun bound hb => (State.itemCount_le hsub).trans (h bound hb)

/-- The items that bound enforcement evicts from a tier. -/
def Session.surplus (cfg : Settings) (σ : Session) (now : Instant) (s : ContextScope) : List ItemId :=
  chosenVictims cfg σ.state now s (σ.excess cfg s)

theorem surplus_nodup : (σ.surplus cfg now s).Nodup := chosenVictims_nodup

theorem scopeOf_of_mem_surplus (h : id ∈ σ.surplus cfg now s) : σ.state.scopeOf id = some s :=
  scopeOf_of_mem_chosenVictims h

theorem surplus_length : (σ.surplus cfg now s).length = min (σ.excess cfg s) (σ.state.itemCount s) :=
  chosenVictims_length

theorem items_enforceTier : (σ.enforceTier P cfg now scope).state.items[id]? =
    if id ∈ σ.surplus cfg now scope then σ.state.items[id]?.bind (·.evicted cfg scope)
    else σ.state.items[id]? := by
  unfold Session.enforceTier Session.surplus
  split
  · rename_i hzero
    simp [hzero, chosenVictims]
  · exact Session.items_evictVictims chosenVictims_nodup

/-- Items only leave the tier, and only for the next colder one. -/
theorem scopeOf_enforceTier (h : (σ.enforceTier P cfg now scope).state.scopeOf id = some s) :
    id ∈ σ.surplus cfg now scope ∧ scope.colder = some s ∨ id ∉ σ.surplus cfg now scope ∧ σ.state.scopeOf id = some s := by
  obtain ⟨e', he', rfl⟩ := State.scopeOf_eq_some.mp h
  rw [items_enforceTier] at he'
  split at he'
  · rename_i hid
    obtain ⟨e, -, hevicted⟩ := Option.bind_eq_some_iff.mp he'
    exact Or.inl ⟨hid, Entry.evicted_colder hevicted⟩
  · rename_i hid
    exact Or.inr ⟨hid, State.scopeOf_eq_some.mpr ⟨e', he', rfl⟩⟩

theorem ne_of_colder {c : ContextScope} (h : s.colder = some c) : s ≠ c := (ContextScope.colder_lt h).ne'

/-- Enforcement leaves the tier within its bound. -/
theorem within_enforceTier : Within cfg (σ.enforceTier P cfg now scope).state scope := by
  intro bound hbound
  have hsub : (σ.enforceTier P cfg now scope).state.pool scope ⊆
      σ.state.pool scope \ (σ.surplus cfg now scope).toFinset := by
    intro id hid
    rw [State.mem_pool] at hid
    simp only [Finset.mem_sdiff, State.mem_pool, List.mem_toFinset]
    rcases scopeOf_enforceTier hid with ⟨-, hcolder⟩ | ⟨hkept, hs⟩
    · exact (ne_of_colder hcolder rfl).elim
    · exact ⟨hs, hkept⟩
  have hvictims : (σ.surplus cfg now scope).toFinset ⊆ σ.state.pool scope := fun id hid =>
    State.mem_pool.mpr (scopeOf_of_mem_surplus (List.mem_toFinset.mp hid))
  have hexcess : σ.excess cfg scope = σ.state.itemCount scope - bound := by
    simp [Session.excess, hbound]
  have hcard := Finset.card_le_card hsub
  rw [Finset.card_sdiff_of_subset hvictims, State.card_pool, State.card_pool,
    List.toFinset_card_of_nodup surplus_nodup, surplus_length, hexcess] at hcard
  omega

/-! ## A sweep -/

theorem Sweep.nil_iff : Sweep P cfg [] σ τ ↔ τ = σ := by
  constructor
  · rintro ⟨⟩
    rfl
  · rintro rfl
    exact .nil

theorem Sweep.cons_iff {rest : List ContextScope} :
    Sweep P cfg (scope :: rest) σ τ ↔ ∃ now, Sweep P cfg rest (σ.enforceTier P cfg now scope) τ := by
  constructor
  · intro h
    cases h with
    | cons now h => exact ⟨now, h⟩
  · rintro ⟨now, h⟩
    exact .cons now h

/-- A sweep leaves the tiers it visits within their bounds and adds nothing to warmer ones. -/
theorem Sweep.within (h : Sweep P cfg scope.andColder σ τ) : (∀ s ≤ scope, Within cfg τ.state s) ∧
    ∀ s, scope < s → ∀ id, τ.state.scopeOf id = some s → σ.state.scopeOf id = some s := by
  induction scope using ContextScope.colder_induction generalizing σ with
  | last scope hnone =>
      rw [ContextScope.andColder_of_none hnone] at h
      obtain ⟨now, h⟩ := Sweep.cons_iff.mp h
      cases Sweep.nil_iff.mp h
      refine ⟨fun s hs => ContextScope.eq_of_le_last hnone hs ▸ within_enforceTier, fun s hlt id hid => ?_⟩
      rcases scopeOf_enforceTier hid with ⟨-, hcolder⟩ | ⟨-, hs⟩
      · cases hnone.symm.trans hcolder
      · exact hs
  | next scope c hcolder ih =>
      rw [ContextScope.andColder_of_some hcolder] at h
      obtain ⟨now, h⟩ := Sweep.cons_iff.mp h
      obtain ⟨hwithin, hwarm⟩ := ih h
      have hlt := ContextScope.colder_lt hcolder
      refine ⟨fun s hs => ?_, fun s hlt' id hid => ?_⟩
      · rcases eq_or_lt_of_le hs with rfl | hlt'
        · exact within_enforceTier.mono (hwarm s hlt)
        · exact hwithin s (ContextScope.le_of_lt_of_colder hcolder hlt')
      · rcases scopeOf_enforceTier (hwarm s (hlt.trans hlt') id hid) with ⟨-, hcolder'⟩ | ⟨-, hs⟩
        · cases hcolder.symm.trans hcolder'
          exact absurd hlt' (not_lt.mpr hlt.le)
        · exact hs

end Semanticore.Context
