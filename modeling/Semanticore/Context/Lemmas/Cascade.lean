import Semanticore.Context.Lemmas.Sweep
import Semanticore.Context.View
import Semanticore.Lib.Cascade

/-!
# Bound enforcement as a cascade

Under a policy that ranks items by a key and then by id, the tiers that a sweep visits keep their highest-ranked items
and let the others fall, one tier after the other. On views a sweep is the eviction of those others, in any order.
-/

namespace Semanticore.Context
open Semanticore.Core Semanticore.Lib

variable {β : Type} [LinearOrder β] {P : Platform} {cfg : Settings} {σ τ ρ : Session} {st : State} {id : ItemId}
  {e e' e'' : Entry} {s : ContextScope} {now : Instant} {rank : ItemId → β} {birth : ItemId → ContextScope × Arrival}

/-! ## Ranking -/

/-- By what a policy orders items before it goes by id. -/
def Entry.key (cfg : Settings) (e : Entry) : Nat :=
  match cfg.evictionPolicy with
  | .lru => e.lastTouch
  | .lfu => e.accesses
  | .recencyWeighted _ => 0

/-- The policy is LRU or LFU. -/
def ByKey (cfg : Settings) : Prop := cfg.evictionPolicy = .lru ∨ cfg.evictionPolicy = .lfu

/-- `rank` agrees with the policy on the live items. -/
def Ranked (cfg : Settings) (rank : ItemId → β) (σ : Session) : Prop :=
  ∀ {a b : ItemId} {ea eb : Entry}, σ.state.items[a]? = some ea → σ.state.items[b]? = some eb →
    toLex (ea.key cfg, a) < toLex (eb.key cfg, b) → rank a < rank b

theorem evictionOrder_sorted (hpolicy : ByKey cfg) (st : State) (now : Instant) (s : ContextScope) :
    (evictionOrder cfg now (st.inScope s)).Pairwise
      fun a b => toLex (a.2.key cfg, a.1) < toLex (b.2.key cfg, b.1) := by
  unfold evictionOrder Entry.key
  rcases hpolicy with hpolicy | hpolicy <;> simp only [hpolicy]
  · exact pairwise_insertionSort (State.inScope_sorted st s)
  · exact pairwise_insertionSort (State.inScope_sorted st s)

/-- A victim is ranked below what is left in its scope. -/
theorem chosenVictims_least (hpolicy : ByKey cfg) {id' : ItemId} {count : Nat} (hid : id ∈ chosenVictims cfg st now s count)
    (hs' : st.scopeOf id' = some s) (hnot : id' ∉ chosenVictims cfg st now s count) (he : st.items[id]? = some e)
    (he' : st.items[id']? = some e') : toLex (e.key cfg, id) < toLex (e'.key cfg, id') := by
  have hsorted := evictionOrder_sorted hpolicy st now s
  have hlive : ∀ p ∈ evictionOrder cfg now (st.inScope s), st.items[p.1]? = some p.2 := fun p hp =>
    (State.mem_inScope.mp ((evictionOrder_perm cfg now _).mem_iff.mp hp)).1
  have hmem' : (id', e') ∈ evictionOrder cfg now (st.inScope s) := by
    refine (evictionOrder_perm cfg now _).mem_iff.mpr (State.mem_inScope.mpr ⟨he', ?_⟩)
    rw [State.scopeOf, he', Option.map_some] at hs'
    exact Option.some.inj hs'
  obtain ⟨p, hp, rfl⟩ := List.mem_map.mp hid
  cases he.symm.trans (hlive p (List.mem_of_mem_take hp))
  rw [← List.take_append_drop count (evictionOrder cfg now (st.inScope s))] at hmem' hsorted
  -- Were the other one among the first `count`, it would be a victim.
  have hdrop := (List.mem_append.mp hmem').resolve_left fun htake => hnot (List.mem_map_of_mem (f := Prod.fst) htake)
  exact (List.pairwise_append.mp hsorted).2.2 p hp _ hdrop

theorem excess_capped (cfg : Settings) (σ : Session) (s : ContextScope) :
    σ.state.itemCount s - σ.excess cfg s = capped (cfg.bounds.get s) (σ.state.itemCount s) := by
  unfold Session.excess capped
  cases cfg.bounds.get s with
  | none => simp
  | some bound =>
      simp only [Option.elim_some]
      omega

/-- A tier keeps its highest-ranked items. -/
theorem keeps_surplus (hpolicy : ByKey cfg) (hrank : Ranked cfg rank σ) (now : Instant) (s : ContextScope) :
    Lib.Keeps rank (cfg.bounds.get s) (σ.state.pool s) (σ.state.pool s \ (σ.surplus cfg now s).toFinset) := by
  let l := (evictionOrder cfg now (σ.state.inScope s)).map Prod.fst
  have hperm : l.Perm ((σ.state.inScope s).map Prod.fst) := (evictionOrder_perm cfg now _).map _
  have hpool : σ.state.pool s = l.toFinset := (List.toFinset_eq_of_perm _ _ hperm).symm
  have hlength : l.length = σ.state.itemCount s := hperm.length_eq.trans (List.length_map ..)
  have hsorted : l.Pairwise fun a b => rank a < rank b := by
    refine List.pairwise_map.mpr ((evictionOrder_sorted hpolicy σ.state now s).imp_of_mem fun {a b} ha hb hlt => ?_)
    have hlive : ∀ p ∈ evictionOrder cfg now (σ.state.inScope s), σ.state.items[p.1]? = some p.2 := fun p hp =>
      (State.mem_inScope.mp ((evictionOrder_perm cfg now _).mem_iff.mp hp)).1
    exact hrank (hlive a ha) (hlive b hb) hlt
  have hsplit : l.toFinset \ (σ.surplus cfg now s).toFinset = (l.drop (σ.excess cfg s)).toFinset := by
    have hnodup : l.Nodup := hsorted.imp fun h => ne_of_apply_ne rank h.ne
    have hsurplus : σ.surplus cfg now s = l.take (σ.excess cfg s) := by
      simp [Session.surplus, chosenVictims, l, List.map_take]
    rw [hsurplus]
    ext a
    rw [← List.take_append_drop (σ.excess cfg s) l] at hnodup
    have hdisj := (List.nodup_append'.mp hnodup).2.2
    rw [Finset.mem_sdiff, List.mem_toFinset, List.mem_toFinset, List.mem_toFinset]
    constructor
    · rintro ⟨ha, hnot⟩
      rw [← List.take_append_drop (σ.excess cfg s) l] at ha
      exact (List.mem_append.mp ha).resolve_left hnot
    · intro ha
      exact ⟨List.mem_of_mem_drop ha, fun ha' => hdisj ha' ha⟩
  rw [hpool, hsplit]
  exact Lib.Keeps.of_sorted hsorted (by rw [hlength]; exact excess_capped cfg σ s)

/-! ## Sinking -/

/-- What evictions may make of an entry. -/
def Entry.Sinks (e e' : Entry) : Prop := e' = e ∨ ∃ c < e.scope, e' = e.arrive c .demoted

theorem Entry.Sinks.trans (h : e.Sinks e') (h' : e'.Sinks e'') : e.Sinks e'' := by
  rcases h with rfl | ⟨c, hc, rfl⟩
  · exact h'
  · rcases h' with rfl | ⟨c', hc', rfl⟩
    · exact Or.inr ⟨c, hc, rfl⟩
    · exact Or.inr ⟨c', lt_trans hc' hc, rfl⟩

theorem Entry.Sinks.lastTouch (h : e.Sinks e') : e'.lastTouch = e.lastTouch := by
  rcases h with rfl | ⟨c, -, rfl⟩ <;> rfl

theorem Entry.Sinks.key (h : e.Sinks e') : e'.key cfg = e.key cfg := by
  rcases h with rfl | ⟨c, -, rfl⟩ <;> rfl

/-- Every live item of `τ` is one of `σ`, and at most sank. -/
def Descends (σ τ : Session) : Prop :=
  ∀ (id : ItemId) (e' : Entry), τ.state.items[id]? = some e' → ∃ e : Entry, σ.state.items[id]? = some e ∧ e.Sinks e'

theorem Descends.refl : Descends σ σ := fun _ e he => ⟨e, he, Or.inl rfl⟩

theorem Descends.trans (h : Descends σ τ) (h' : Descends τ ρ) : Descends σ ρ := by
  intro id e'' he''
  obtain ⟨e', he', hsinks'⟩ := h' id e'' he''
  obtain ⟨e, he, hsinks⟩ := h id e' he'
  exact ⟨e, he, hsinks.trans hsinks'⟩

theorem Ranked.descends (h : Ranked cfg rank σ) (hdesc : Descends σ τ) : Ranked cfg rank τ := by
  intro a b ea' eb' ha' hb' hlt
  obtain ⟨ea, ha, hsa⟩ := hdesc a ea' ha'
  obtain ⟨eb, hb, hsb⟩ := hdesc b eb' hb'
  rw [hsa.key, hsb.key] at hlt
  exact h ha hb hlt

/-- Every live item is where `birth` says, by the arrival it says, or sank from there. -/
def Born (birth : ItemId → ContextScope × Arrival) (σ : Session) : Prop :=
  ∀ (id : ItemId) (e : Entry), σ.state.items[id]? = some e →
    (e.scope, e.arrival) = birth id ∨ e.scope < (birth id).1 ∧ e.arrival = .demoted

theorem Born.descends (h : Born birth σ) (hdesc : Descends σ τ) : Born birth τ := by
  intro id e' he'
  obtain ⟨e, he, hsinks⟩ := hdesc id e' he'
  rcases hsinks with rfl | ⟨c, hc, rfl⟩
  · exact h id e' he
  · refine Or.inr ⟨?_, rfl⟩
    rcases h id e he with hbirth | ⟨hlt, -⟩
    · exact hbirth ▸ hc
    · exact lt_trans hc hlt

/-- Whether an item evicted from `s` goes to the next tier. -/
def Falls (cfg : Settings) (birth : ItemId → ContextScope × Arrival) (s : ContextScope) (id : ItemId) : Prop :=
  (evictionTarget cfg s (if (birth id).1 = s then (birth id).2 else .demoted)).isSome

instance (s : ContextScope) : DecidablePred (Falls cfg birth s) := fun _ => inferInstanceAs (Decidable (_ = true))

theorem Born.falls_iff (h : Born birth σ) (he : σ.state.items[id]? = some e) :
    Falls cfg birth e.scope id ↔ (evictionTarget cfg e.scope e.arrival).isSome := by
  unfold Falls
  rcases h id e he with hbirth | ⟨hlt, harrival⟩
  · rw [← hbirth, if_pos rfl]
  · rw [if_neg hlt.ne', harrival]

/-! ## One tier -/

theorem live_of_mem_surplus (h : id ∈ σ.surplus cfg now s) : ∃ e : Entry, σ.state.items[id]? = some e ∧ e.scope = s :=
  State.scopeOf_eq_some.mp (scopeOf_of_mem_surplus h)

theorem descends_enforceTier : Descends σ (σ.enforceTier P cfg now s) := by
  intro id e' he'
  rw [items_enforceTier] at he'
  split at he'
  · rename_i hid
    obtain ⟨e, he, hevicted⟩ := Option.bind_eq_some_iff.mp he'
    obtain ⟨e₀, he₀, rfl⟩ := live_of_mem_surplus hid
    cases he₀.symm.trans he
    obtain ⟨c, hc, rfl⟩ := Option.map_eq_some_iff.mp hevicted
    exact ⟨e, he, Or.inr ⟨c, evictionTarget_lt hc, rfl⟩⟩
  · exact ⟨e', he', Or.inl rfl⟩

theorem Sweep.descends {scopes : List ContextScope} (h : Sweep P cfg scopes σ τ) : Descends σ τ := by
  induction h with
  | nil => exact .refl
  | cons now h ih => exact descends_enforceTier.trans ih

theorem scopeOf_enforceTier_of_not_mem (h : id ∉ σ.surplus cfg now s) :
    (σ.enforceTier P cfg now s).state.scopeOf id = σ.state.scopeOf id := by
  unfold State.scopeOf
  rw [items_enforceTier, if_neg h]

theorem not_mem_surplus {c : ContextScope} (hne : c ≠ s) (h : σ.state.scopeOf id = some c) :
    id ∉ σ.surplus cfg now s := fun hid =>
  hne (Option.some.inj (h.symm.trans (scopeOf_of_mem_surplus hid)))

theorem pool_enforceTier : (σ.enforceTier P cfg now s).state.pool s = σ.state.pool s \ (σ.surplus cfg now s).toFinset := by
  ext id
  rw [Finset.mem_sdiff, State.mem_pool, State.mem_pool, List.mem_toFinset]
  constructor
  · intro h
    rcases scopeOf_enforceTier h with ⟨-, hcolder⟩ | ⟨hid, hs⟩
    · exact (ne_of_colder hcolder rfl).elim
    · exact ⟨hs, hid⟩
  · rintro ⟨hs, hid⟩
    rwa [scopeOf_enforceTier_of_not_mem hid]

theorem pool_enforceTier_colder {c : ContextScope} (h : Born birth σ) (hcolder : s.colder = some c) :
    (σ.enforceTier P cfg now s).state.pool c =
      σ.state.pool c ∪ (σ.surplus cfg now s).toFinset.filter (Falls cfg birth s) := by
  ext id
  rw [Finset.mem_union, Finset.mem_filter, State.mem_pool, State.mem_pool, List.mem_toFinset]
  by_cases hid : id ∈ σ.surplus cfg now s
  · obtain ⟨e, he, rfl⟩ := live_of_mem_surplus hid
    have hnot : σ.state.scopeOf id ≠ some c := fun hs => not_mem_surplus (ne_of_colder hcolder).symm hs hid
    rw [h.falls_iff he, Option.isSome_iff_exists]
    constructor
    · intro hs
      obtain ⟨e', he', -⟩ := State.scopeOf_eq_some.mp hs
      rw [items_enforceTier, if_pos hid, he] at he'
      obtain ⟨d, hd, -⟩ := Option.map_eq_some_iff.mp he'
      exact Or.inr ⟨hid, d, hd⟩
    · rintro (hs | ⟨-, d, hd⟩)
      · exact (hnot hs).elim
      · have he' : (σ.enforceTier P cfg now e.scope).state.items[id]? = some (e.arrive d .demoted) := by
          rw [items_enforceTier, if_pos hid, he, Option.bind_some, Entry.evicted, hd]
          rfl
        have hevicted : e.evicted cfg e.scope = some (e.arrive d .demoted) := by
          rw [Entry.evicted, hd]
          rfl
        have hdc : e.scope.colder = some d := Entry.evicted_colder hevicted
        cases hdc.symm.trans hcolder
        exact State.scopeOf_eq_some.mpr ⟨_, he', rfl⟩
  · rw [scopeOf_enforceTier_of_not_mem hid]
    simp [hid]

theorem pool_enforceTier_other {c : ContextScope} (hne : c ≠ s) (hcolder : s.colder ≠ some c) :
    (σ.enforceTier P cfg now s).state.pool c = σ.state.pool c := by
  ext id
  rw [State.mem_pool, State.mem_pool]
  constructor
  · intro h
    rcases scopeOf_enforceTier h with ⟨-, hcolder'⟩ | ⟨-, hs⟩
    · exact (hcolder hcolder').elim
    · exact hs
  · intro h
    rwa [scopeOf_enforceTier_of_not_mem (not_mem_surplus hne h)]

theorem view_evictVictims {ids : List ItemId} (h : Evictable s ids σ) :
    (σ.evictVictims P cfg s ids).view = ids.foldl (View.evict P cfg) σ.view := by
  induction ids generalizing σ with
  | nil => rfl
  | cons id ids ih =>
      obtain ⟨hid, hids⟩ := List.nodup_cons.mp h.1
      obtain ⟨e, he, hs⟩ := h.2 id (by simp)
      have hrest : Evictable s ids (σ.evictVictim P cfg s id) := by
        refine ⟨hids, fun id' hid' => ?_⟩
        rw [Session.items_evictVictim_ne fun heq : id = id' => hid (heq ▸ hid')]
        exact h.2 id' (by simp [hid'])
      rw [List.foldl_cons, ← Session.view_evictVictim he hs]
      exact ih hrest

theorem view_enforceTier : (σ.enforceTier P cfg now s).view =
    (σ.surplus cfg now s : Multiset ItemId).foldl (View.evict P cfg) σ.view := by
  rw [Multiset.coe_foldl]
  unfold Session.enforceTier Session.surplus
  split
  · rename_i hzero
    rw [hzero, chosenVictims, List.take_zero]
    rfl
  · exact view_evictVictims (evictable_chosenVictims cfg σ now s _)

/-- What a tier does not keep are the victims. -/
theorem pool_sdiff_enforceTier :
    σ.state.pool s \ (σ.enforceTier P cfg now s).state.pool s = (σ.surplus cfg now s).toFinset := by
  rw [pool_enforceTier, Finset.sdiff_sdiff_eq_self]
  exact fun id hid => State.mem_pool.mpr (scopeOf_of_mem_surplus (List.mem_toFinset.mp hid))

theorem val_surplus : (σ.surplus cfg now s).toFinset.val = (σ.surplus cfg now s : Multiset ItemId) := by
  rw [List.toFinset_val, surplus_nodup.dedup]

/-! ## All tiers -/

/-- A sweep is a cascade. `T` is what the tiers hold, but for the first one, where `I` has arrived. -/
theorem Sweep.cascade (hpolicy : ByKey cfg) (hrank : Ranked cfg rank σ) (hborn : Born birth σ)
    {T : ContextScope → Finset ItemId} {I : Finset ItemId} (hhead : σ.state.pool s = T s ∪ I)
    (htail : ∀ c < s, σ.state.pool c = T c) (h : Sweep P cfg s.andColder σ τ) :
    ∃ R, Cascade rank cfg.bounds.get (Falls cfg birth) T τ.state.pool s.andColder I R ∧
      τ.view = R.foldl (View.evict P cfg) σ.view ∧ Descends σ τ ∧ ∀ t, s < t → τ.state.pool t = σ.state.pool t := by
  induction s using ContextScope.colder_induction generalizing σ I with
  | last s hnone =>
      rw [ContextScope.andColder_of_none hnone] at h ⊢
      obtain ⟨now, h⟩ := Sweep.cons_iff.mp h
      cases Sweep.nil_iff.mp h
      have hkeeps := keeps_surplus hpolicy hrank now s
      rw [← pool_enforceTier (P := P), hhead] at hkeeps
      refine ⟨_, .cons hkeeps .nil, ?_, descends_enforceTier, fun t ht => ?_⟩
      · rw [← hhead, pool_sdiff_enforceTier, val_surplus, add_zero, view_enforceTier]
      · exact pool_enforceTier_other ht.ne' (hnone ▸ Option.some_ne_none t).symm
  | next s c hcolder ih =>
      rw [ContextScope.andColder_of_some hcolder] at h ⊢
      obtain ⟨now, h⟩ := Sweep.cons_iff.mp h
      have hlt := ContextScope.colder_lt hcolder
      have hdesc : Descends σ (σ.enforceTier P cfg now s) := descends_enforceTier
      obtain ⟨R, hcascade, hview, hdesc', hwarm⟩ := ih (hrank.descends hdesc) (hborn.descends hdesc)
        (by rw [pool_enforceTier_colder hborn hcolder, htail c hlt])
        (fun d hd => by
          have hne : s.colder ≠ some d := fun heq => hd.ne (Option.some.inj (heq.symm.trans hcolder))
          rw [pool_enforceTier_other (hd.trans hlt).ne hne, htail d (hd.trans hlt)]) h
      have hkeeps := keeps_surplus hpolicy hrank now s
      rw [← pool_enforceTier (P := P), ← hwarm s hlt, hhead] at hkeeps
      have hinflow : (T s ∪ I) \ τ.state.pool s = (σ.surplus cfg now s).toFinset := by
        rw [← hhead, hwarm s hlt, pool_sdiff_enforceTier]
      refine ⟨_, .cons hkeeps (hinflow ▸ hcascade), ?_, hdesc.trans hdesc', fun t ht => ?_⟩
      · rw [hinflow, val_surplus, Multiset.foldl_add, ← view_enforceTier, hview]
      · rw [hwarm t (hlt.trans ht)]
        refine pool_enforceTier_other ht.ne' fun heq => ?_
        exact lt_asymm ht (ContextScope.colder_lt heq)

end Semanticore.Context
