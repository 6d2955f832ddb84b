import Semanticore.Context.Pressure

/-!
# What bound enforcement leaves of each tier

Going from a tier to the colder ones, what enforcement finds in a tier is what was there and what this call has demoted
into it. Of these the tier keeps the highest-ranked up to its bound. Each of the others goes one tier colder or is dropped.
-/

namespace Semanticore.Context
open Semanticore.Core Semanticore.Lib

/-- The target sends an item that arrived in its tier by `a` to the next colder tier, if there is one. -/
def Settings.Demotes (cfg : Settings) (a : Arrival) : Prop :=
  cfg.demotionTarget = .nextColder ∨ cfg.demotionTarget = .oneStepThenDrop ∧ a = .promoted

/-- The items that an enforcement from `s` on, which led from `σ` to `τ`, found in a tier, with their arrival there: those
of the tier, and those that left the next warmer one and were not to be dropped. -/
inductive Candidate (cfg : Settings) (s : ContextScope) (σ τ : State) : ContextScope → Arrival → ItemId → Prop
  | there {id : ItemId} {e : Entry} (he : σ.items[id]? = some e) (hle : e.scope ≤ s) :
      Candidate cfg s σ τ e.scope e.arrival id
  | demoted {t c : ContextScope} {a : Arrival} {id : ItemId} (h : Candidate cfg s σ τ t a id)
      (hleft : τ.scopeOf id ≠ some t) (hcolder : t.colder = some c) (hdemotes : cfg.Demotes a) :
      Candidate cfg s σ τ c .demoted id

/-- By what LRU and LFU rank the live items: the key of the policy, then the id. -/
def State.rank (cfg : Settings) (st : State) (id : ItemId) : Nat ×ₗ ItemId :=
  toLex ((st.items[id]?).elim 0 (·.key cfg), id)

/-- The candidates that did not stay in their tier, of those for which `q` holds of the tier and the arrival there. -/
def leaving (cfg : Settings) (s : ContextScope) (σ τ : State) (q : ContextScope → Arrival → Prop) :
    Set (ContextScope × ItemId) :=
  {p | ∃ a, Candidate cfg s σ τ p.1 a p.2 ∧ τ.scopeOf p.2 ≠ some p.1 ∧ q p.1 a}

/-- The moves of an enforcement to the next colder tier. -/
def movesColder (cfg : Settings) (s : ContextScope) (σ τ : State) : Set (ContextScope × ItemId) :=
  leaving cfg s σ τ fun t a => t.colder.isSome ∧ cfg.Demotes a

/-- The drops of an enforcement. -/
def drops (cfg : Settings) (s : ContextScope) (σ τ : State) : Set (ContextScope × ItemId) :=
  leaving cfg s σ τ fun t a => ¬ (t.colder.isSome ∧ cfg.Demotes a)

variable {β : Type} [LinearOrder β] {P : Platform} {cfg : Settings} {σ τ : Session} {w : World}
  {id : ItemId} {ids : List ItemId} {e : Entry} {s t c : ContextScope} {a : Arrival} {now : Instant} {rank : ItemId → β}
  {q : ContextScope → Arrival → Prop} {p : ItemId → Bool}

/-! ## One tier -/

theorem evictionTarget_eq_some : evictionTarget cfg t a = some c ↔ t.colder = some c ∧ cfg.Demotes a := by
  unfold evictionTarget Settings.Demotes
  cases cfg.demotionTarget with
  | drop => simp
  | nextColder => simp
  | oneStepThenDrop => cases a <;> simp

theorem evictionTarget_eq_none : evictionTarget cfg t a = none ↔ ¬ (t.colder.isSome ∧ cfg.Demotes a) := by
  rw [Option.eq_none_iff_forall_ne_some, Option.isSome_iff_exists]
  simp only [ne_eq, evictionTarget_eq_some]
  constructor
  · rintro h ⟨⟨c, hc⟩, hdemotes⟩
    exact h c ⟨hc, hdemotes⟩
  · rintro h c ⟨hc, hdemotes⟩
    exact h ⟨⟨c, hc⟩, hdemotes⟩

/-- Whether the eviction of an item from `s` demotes it. -/
def Session.sends (cfg : Settings) (s : ContextScope) (σ : Session) (id : ItemId) : Bool :=
  (σ.state.items[id]?.bind (·.evicted cfg s)).isSome

theorem sends_of_live (he : σ.state.items[id]? = some e) :
    σ.sends cfg s id = true ↔ s.colder.isSome ∧ cfg.Demotes e.arrival := by
  rw [Session.sends, he, Option.bind_some, Entry.evicted, Option.isSome_map, Option.isSome_iff_exists,
    Option.isSome_iff_exists]
  simp only [evictionTarget_eq_some, exists_and_right]

theorem stats_evictVictim (he : σ.state.items[id]? = some e) : (σ.evictVictim P cfg s id).state.stats =
    { σ.state.stats with itemsDemoted := σ.state.stats.itemsDemoted + if σ.sends cfg s id then 1 else 0
                         itemsEvicted := σ.state.stats.itemsEvicted + if !σ.sends cfg s id then 1 else 0 } := by
  unfold Session.evictVictim Session.sends
  simp only [he, Option.bind_some, Entry.evicted, Option.isSome_map]
  cases evictionTarget cfg s e.arrival with
  | some colder => rfl
  | none => rfl

/-- Each victim is counted, once. -/
theorem stats_evictVictims (h : Evictable s ids σ) : (σ.evictVictims P cfg s ids).state.stats =
    { σ.state.stats with itemsDemoted := σ.state.stats.itemsDemoted + ids.countP (σ.sends cfg s)
                         itemsEvicted := σ.state.stats.itemsEvicted + ids.countP (fun id => !σ.sends cfg s id) } := by
  induction ids generalizing σ with
  | nil => rfl
  | cons id ids ih =>
      obtain ⟨hid, hids⟩ := List.nodup_cons.mp h.1
      obtain ⟨e, he, -⟩ := h.2 id (by simp)
      have hsame : ∀ id' ∈ ids, (σ.evictVictim P cfg s id).sends cfg s id' = σ.sends cfg s id' := by
        intro id' hid'
        rw [Session.sends, Session.items_evictVictim_ne fun heq : id = id' => hid (heq ▸ hid'), Session.sends]
      have hsent : ids.countP ((σ.evictVictim P cfg s id).sends cfg s) = ids.countP (σ.sends cfg s) :=
        List.countP_congr fun id' hid' => by rw [hsame id' hid']
      have hdropped : ids.countP (fun id' => !(σ.evictVictim P cfg s id).sends cfg s id') =
          ids.countP fun id' => !σ.sends cfg s id' := List.countP_congr fun id' hid' => by rw [hsame id' hid']
      rw [show σ.evictVictims P cfg s (id :: ids) = (σ.evictVictim P cfg s id).evictVictims P cfg s ids from rfl,
        ih (h.next P cfg), hsent, hdropped, stats_evictVictim he, List.countP_cons, List.countP_cons]
      simp only [Nat.add_assoc, Nat.add_comm (List.countP _ ids)]

theorem stats_enforceTier : (σ.enforceTier P cfg now s).state.stats =
    { σ.state.stats with
        itemsDemoted := σ.state.stats.itemsDemoted + (σ.surplus cfg now s).countP (σ.sends cfg s)
        itemsEvicted := σ.state.stats.itemsEvicted + (σ.surplus cfg now s).countP fun id => !σ.sends cfg s id } := by
  unfold Session.enforceTier Session.surplus
  split
  · rename_i hzero
    simp [hzero, chosenVictims]
  · exact stats_evictVictims (evictable_chosenVictims cfg σ now s _)

/-! ## Candidates -/

section
variable {st st' : State}

theorem Candidate.le (h : Candidate cfg s st st' t a id) : t ≤ s := by
  induction h with
  | there he hle => exact hle
  | demoted h hleft hcolder hdemotes ih => exact (ContextScope.colder_lt hcolder).le.trans ih

/-- Nothing is demoted into the first tier. -/
theorem candidate_first : Candidate cfg s st st' s a id ↔
    ∃ e : Entry, st.items[id]? = some e ∧ e.scope = s ∧ e.arrival = a := by
  constructor
  · intro h
    cases h with
    | there he hle => exact ⟨_, he, rfl, rfl⟩
    | demoted h hleft hcolder hdemotes => exact absurd h.le (ContextScope.colder_lt hcolder).not_ge
  · rintro ⟨e, he, rfl, rfl⟩
    exact .there he le_rfl

end

/-- The victims of the first tier are the items of it that do not stay. -/
theorem mem_surplus_iff (hfirst : ∀ id, τ.state.scopeOf id = some s ↔ (σ.enforceTier P cfg now s).state.scopeOf id = some s) :
    id ∈ σ.surplus cfg now s ↔ σ.state.scopeOf id = some s ∧ τ.state.scopeOf id ≠ some s := by
  have hpool : (σ.enforceTier P cfg now s).state.pool s = σ.state.pool s \ (σ.surplus cfg now s).toFinset := pool_enforceTier
  have hkept := Finset.ext_iff.mp hpool id
  rw [Finset.mem_sdiff, State.mem_pool, State.mem_pool, List.mem_toFinset] at hkept
  rw [Ne, hfirst, hkept]
  constructor
  · intro hid
    exact ⟨scopeOf_of_mem_surplus hid, fun h => h.2 hid⟩
  · rintro ⟨hs, hnot⟩
    by_contra hid
    exact hnot ⟨hs, hid⟩

/-- What the first tier sends down is there for the enforcement of the colder ones. -/
theorem candidate_rest (hcolder : s.colder = some c)
    (hfirst : ∀ id, τ.state.scopeOf id = some s ↔ (σ.enforceTier P cfg now s).state.scopeOf id = some s) (hle : t ≤ c) :
    Candidate cfg s σ.state τ.state t a id ↔ Candidate cfg c (σ.enforceTier P cfg now s).state τ.state t a id := by
  have hlt := ContextScope.colder_lt hcolder
  constructor
  · intro h
    induction h with
    | @there id e he hle' =>
        have hid : id ∉ σ.surplus cfg now s := fun hid => by
          have hs := scopeOf_of_mem_surplus hid
          rw [State.scopeOf, he, Option.map_some, Option.some.injEq] at hs
          exact absurd (hs ▸ hlt) hle.not_gt
        exact .there (by rw [items_enforceTier, if_neg hid]; exact he) hle
    | @demoted t d a id h hleft hd hdemotes ih =>
        rcases eq_or_lt_of_le h.le with rfl | hlt'
        · obtain ⟨e, he, hs, rfl⟩ := candidate_first.mp h
          have hid : id ∈ σ.surplus cfg now t :=
            (mem_surplus_iff hfirst).mpr ⟨State.scopeOf_eq_some.mpr ⟨e, he, hs⟩, hleft⟩
          have hsent : (σ.enforceTier P cfg now t).state.items[id]? = some (e.arrive d .demoted) := by
            rw [items_enforceTier, if_pos hid, he, Option.bind_some, Entry.evicted, evictionTarget_eq_some.mpr ⟨hd, hdemotes⟩,
              Option.map_some]
          exact .there hsent hle
        · exact .demoted (ih (ContextScope.le_of_lt_of_colder hcolder hlt')) hleft hd hdemotes
  · intro h
    induction h with
    | @there id e he hle' =>
        rw [items_enforceTier] at he
        split at he
        · rename_i hid
          obtain ⟨e₀, he₀, hevicted⟩ := Option.bind_eq_some_iff.mp he
          obtain ⟨d, hd, rfl⟩ := Option.map_eq_some_iff.mp hevicted
          obtain ⟨hs, hleft⟩ := (mem_surplus_iff hfirst).mp hid
          have hs₀ : e₀.scope = s := by
            rw [State.scopeOf, he₀] at hs
            exact Option.some.inj hs
          obtain ⟨hd, hdemotes⟩ := evictionTarget_eq_some.mp hd
          exact .demoted (candidate_first.mpr ⟨e₀, he₀, hs₀, rfl⟩) hleft hd hdemotes
        · exact .there he (hle'.trans hlt.le)
    | @demoted t d a id h hleft hd hdemotes ih => exact .demoted (ih h.le) hleft hd hdemotes

/-! ## Enforcement -/

/-- The state `τ` is what an enforcement from `s` on leaves of `σ`. -/
structure Enforced (cfg : Settings) (rank : ItemId → β) (s : ContextScope) (σ τ : Session) : Prop where
  keeps : ∀ t ≤ s, ∃ X : Finset ItemId, (∀ id, id ∈ X ↔ ∃ a, Candidate cfg s σ.state τ.state t a id) ∧
    Lib.Keeps rank (cfg.bounds.get t) X (τ.state.pool t)
  gone : ∀ t a id, Candidate cfg s σ.state τ.state t a id → τ.state.scopeOf id ≠ some t →
    ¬ (t.colder.isSome ∧ cfg.Demotes a) → τ.state.items[id]? = none
  counted : ∃ D G : Finset (ContextScope × ItemId), (D : Set _) = movesColder cfg s σ.state τ.state ∧
    (G : Set _) = drops cfg s σ.state τ.state ∧ τ.state.stats =
      { σ.state.stats with itemsDemoted := σ.state.stats.itemsDemoted + D.card
                           itemsEvicted := σ.state.stats.itemsEvicted + G.card }

section
variable (hfirst : ∀ id, τ.state.scopeOf id = some s ↔ (σ.enforceTier P cfg now s).state.scopeOf id = some s)

include hfirst

/-- The first tier keeps its highest-ranked items. -/
theorem first_keeps (hpolicy : ByKey cfg) (hrank : Ranked cfg rank σ) :
    ∃ X : Finset ItemId, (∀ id, id ∈ X ↔ ∃ a, Candidate cfg s σ.state τ.state s a id) ∧
      Lib.Keeps rank (cfg.bounds.get s) X (τ.state.pool s) := by
  have hpool : τ.state.pool s = σ.state.pool s \ (σ.surplus cfg now s).toFinset := by
    rw [← pool_enforceTier (P := P)]
    ext id
    rw [State.mem_pool, State.mem_pool]
    exact hfirst id
  refine ⟨σ.state.pool s, fun id => ?_, hpool ▸ keeps_surplus hpolicy hrank now s⟩
  rw [State.mem_pool, State.scopeOf_eq_some]
  simp only [candidate_first]
  constructor
  · rintro ⟨e, he, hs⟩
    exact ⟨e.arrival, e, he, hs, rfl⟩
  · rintro ⟨_, e, he, hs, -⟩
    exact ⟨e, he, hs⟩

/-- What the first tier drops is gone. -/
theorem first_gone (hdesc : Descends (σ.enforceTier P cfg now s) τ) (h : Candidate cfg s σ.state τ.state s a id)
    (hleft : τ.state.scopeOf id ≠ some s) (hnot : ¬ (s.colder.isSome ∧ cfg.Demotes a)) : τ.state.items[id]? = none := by
  obtain ⟨e, he, hs, rfl⟩ := candidate_first.mp h
  have hid : id ∈ σ.surplus cfg now s := (mem_surplus_iff hfirst).mpr ⟨State.scopeOf_eq_some.mpr ⟨e, he, hs⟩, hleft⟩
  have hdropped : (σ.enforceTier P cfg now s).state.items[id]? = none := by
    rw [items_enforceTier, if_pos hid, he, Option.bind_some, Entry.evicted, evictionTarget_eq_none.mpr hnot, Option.map_none]
  cases hlive : τ.state.items[id]? with
  | none => rfl
  | some e' =>
      obtain ⟨e₀, he₀, -⟩ := hdesc id e' hlive
      cases hdropped.symm.trans he₀

/-- Of those that leave, the victims of the first tier come to those of the colder ones. -/
theorem card_leaving (hp : ∀ (id : ItemId) (e : Entry), σ.state.items[id]? = some e → (p id = true ↔ q s e.arrival))
    {D : Finset (ContextScope × ItemId)} (hD : ∀ t id, (t, id) ∈ D ↔ t < s ∧ (t, id) ∈ leaving cfg s σ.state τ.state q) :
    ∃ D' : Finset (ContextScope × ItemId), (D' : Set _) = leaving cfg s σ.state τ.state q ∧
      D'.card = (σ.surplus cfg now s).countP p + D.card := by
  have hinj : Function.Injective fun id : ItemId => (s, id) := fun _ _ h => (Prod.mk.inj h).2
  let V := ((σ.surplus cfg now s).filter p).toFinset.map ⟨_, hinj⟩
  have hV : ∀ t id, (t, id) ∈ V ↔ t = s ∧ id ∈ σ.surplus cfg now s ∧ p id = true := by
    intro t id
    simp only [V, Finset.mem_map, List.mem_toFinset, List.mem_filter, Function.Embedding.coeFn_mk, Prod.mk.injEq]
    constructor
    · rintro ⟨_, hid, rfl, rfl⟩
      exact ⟨rfl, hid⟩
    · rintro ⟨rfl, hid⟩
      exact ⟨id, hid, rfl, rfl⟩
  have hdisj : Disjoint V D := by
    refine Finset.disjoint_left.mpr ?_
    rintro ⟨t, id⟩ hVmem hDmem
    exact ((hD t id).mp hDmem).1.ne ((hV t id).mp hVmem).1
  refine ⟨V ∪ D, ?_, ?_⟩
  · ext ⟨t, id⟩
    rw [Finset.coe_union, Set.mem_union, Finset.mem_coe, Finset.mem_coe, hV, hD]
    constructor
    · rintro (⟨rfl, hid, hpid⟩ | ⟨-, h⟩)
      · obtain ⟨hs, hleft⟩ := (mem_surplus_iff hfirst).mp hid
        obtain ⟨e, he, hs⟩ := State.scopeOf_eq_some.mp hs
        exact ⟨e.arrival, candidate_first.mpr ⟨e, he, hs, rfl⟩, hleft, (hp id e he).mp hpid⟩
      · exact h
    · rintro ⟨a, h, hleft, hq⟩
      rcases eq_or_lt_of_le h.le with rfl | hlt
      · obtain ⟨e, he, hs, rfl⟩ := candidate_first.mp h
        exact Or.inl ⟨rfl, (mem_surplus_iff hfirst).mpr ⟨State.scopeOf_eq_some.mpr ⟨e, he, hs⟩, hleft⟩, (hp id e he).mpr hq⟩
      · exact Or.inr ⟨hlt, a, h, hleft, hq⟩
  · rw [Finset.card_union_of_disjoint hdisj, Finset.card_map, List.toFinset_card_of_nodup (surplus_nodup.filter _),
      List.countP_eq_length_filter]

/-- The candidates that leave a colder tier leave it in the enforcement of the colder ones. -/
theorem mem_leaving_rest (hcolder : s.colder = some c) :
    (t, id) ∈ leaving cfg c (σ.enforceTier P cfg now s).state τ.state q ↔
      t < s ∧ (t, id) ∈ leaving cfg s σ.state τ.state q := by
  constructor
  · rintro ⟨a, h, hrest⟩
    exact ⟨h.le.trans_lt (ContextScope.colder_lt hcolder), a, (candidate_rest hcolder hfirst h.le).mpr h, hrest⟩
  · rintro ⟨hlt, a, h, hrest⟩
    exact ⟨a, (candidate_rest hcolder hfirst (ContextScope.le_of_lt_of_colder hcolder hlt)).mp h, hrest⟩

/-- The counters after the first tier and the colder ones. -/
theorem first_counted {D G : Finset (ContextScope × ItemId)}
    (hD : ∀ t id, (t, id) ∈ D ↔ t < s ∧ (t, id) ∈ movesColder cfg s σ.state τ.state)
    (hG : ∀ t id, (t, id) ∈ G ↔ t < s ∧ (t, id) ∈ drops cfg s σ.state τ.state)
    (hstats : τ.state.stats = { (σ.enforceTier P cfg now s).state.stats with
      itemsDemoted := (σ.enforceTier P cfg now s).state.stats.itemsDemoted + D.card
      itemsEvicted := (σ.enforceTier P cfg now s).state.stats.itemsEvicted + G.card }) :
    ∃ D G : Finset (ContextScope × ItemId), (D : Set _) = movesColder cfg s σ.state τ.state ∧
      (G : Set _) = drops cfg s σ.state τ.state ∧ τ.state.stats =
        { σ.state.stats with itemsDemoted := σ.state.stats.itemsDemoted + D.card
                             itemsEvicted := σ.state.stats.itemsEvicted + G.card } := by
  obtain ⟨D', hD', hDcard⟩ := card_leaving hfirst (fun id e he => sends_of_live he) hD
  have hnot : ∀ (id : ItemId) (e : Entry), σ.state.items[id]? = some e →
      ((!σ.sends cfg s id) = true ↔ ¬ (s.colder.isSome ∧ cfg.Demotes e.arrival)) := by
    intro id e he
    rw [← sends_of_live he, Bool.not_eq_true', Bool.not_eq_true]
  obtain ⟨G', hG', hGcard⟩ := card_leaving hfirst hnot hG
  refine ⟨D', G', hD', hG', ?_⟩
  rw [hstats, stats_enforceTier, hDcard, hGcard]
  simp only [Nat.add_assoc]

end

/-- Enforcement without failures, tier by tier. -/
theorem enforced_sweep (hpolicy : ByKey cfg) (hrank : Ranked cfg rank σ) (h : Sweep P cfg s.andColder σ τ) :
    Enforced cfg rank s σ τ := by
  induction s using ContextScope.colder_induction generalizing σ with
  | last s hnone =>
      rw [ContextScope.andColder_of_none hnone] at h
      obtain ⟨now, h⟩ := Sweep.cons_iff.mp h
      cases Sweep.nil_iff.mp h
      have hfirst (id : ItemId) := Iff.refl ((σ.enforceTier P cfg now s).state.scopeOf id = some s)
      refine ⟨fun t ht => ?_, fun t a id hcand hleft hnot => ?_, ?_⟩
      · cases ContextScope.eq_of_le_last hnone ht
        exact first_keeps hfirst hpolicy hrank
      · cases ContextScope.eq_of_le_last hnone hcand.le
        exact first_gone hfirst .refl hcand hleft hnot
      · have hempty : ∀ q t id, (t, id) ∈ (∅ : Finset (ContextScope × ItemId)) ↔
            t < s ∧ (t, id) ∈ leaving cfg s σ.state (σ.enforceTier P cfg now s).state q := by
          intro q t id
          constructor
          · intro hmem
            exact (Finset.notMem_empty _ hmem).elim
          · rintro ⟨hlt, -⟩
            exact (hlt.ne (ContextScope.eq_of_le_last hnone hlt.le)).elim
        exact first_counted hfirst (hempty _) (hempty _) rfl
  | next s c hcolder ih =>
      rw [ContextScope.andColder_of_some hcolder] at h
      obtain ⟨now, h⟩ := Sweep.cons_iff.mp h
      have hlt := ContextScope.colder_lt hcolder
      have hfirst : ∀ id, τ.state.scopeOf id = some s ↔ (σ.enforceTier P cfg now s).state.scopeOf id = some s := fun id =>
        ⟨h.within.2 s hlt id, scopeOf_sweep_warm h (fun t ht => (ContextScope.mem_andColder.mp ht).trans_lt hlt) le_rfl⟩
      obtain ⟨hkeeps, hgone, D, G, hD, hG, hstats⟩ := ih (hrank.descends descends_enforceTier) h
      refine ⟨fun t ht => ?_, fun t a id hcand hleft hnot => ?_, ?_⟩
      · rcases eq_or_lt_of_le ht with rfl | hlt'
        · exact first_keeps hfirst hpolicy hrank
        · have hle := ContextScope.le_of_lt_of_colder hcolder hlt'
          obtain ⟨X, hX, hkept⟩ := hkeeps t hle
          exact ⟨X, fun id => (hX id).trans (exists_congr fun a => (candidate_rest hcolder hfirst hle).symm), hkept⟩
      · rcases eq_or_lt_of_le hcand.le with rfl | hlt'
        · exact first_gone hfirst h.descends hcand hleft hnot
        · have hle := ContextScope.le_of_lt_of_colder hcolder hlt'
          exact hgone t a id ((candidate_rest hcolder hfirst hle).mp hcand) hleft hnot
      · refine first_counted hfirst (fun t id => ?_) (fun t id => ?_) hstats
        · rw [← Finset.mem_coe, hD]
          exact mem_leaving_rest hfirst hcolder
        · rw [← Finset.mem_coe, hG]
          exact mem_leaving_rest hfirst hcolder

theorem ranked_rank : Ranked cfg (σ.state.rank cfg) σ := by
  intro a b ea eb ha hb hlt
  simpa only [State.rank, ha, hb, Option.elim_some] using hlt

/-- Without failures enforcement is a sweep. -/
theorem enforceBounds_clean (P : Platform) (cfg : Settings) (s : ContextScope) (hclean : w.Clean) :
    ∃ w', (enforceBounds P cfg s).run.run w = (.ok (), w') ∧ Sweep P cfg s.andColder w.session w'.session ∧
      Trail P cfg w.session w'.session := by
  have hruns := (sweep_spec P cfg w s.andColder).mono (fun _ _ _ h => h) fun _ _ _ h => (h.unclean hclean : False)
  obtain ⟨⟨⟩, w', hrun, -, h⟩ := hruns.returns
  exact ⟨w', hrun, h⟩

/-- From any state, under LRU or LFU, enforcement from a tier down returns if no transaction fails. Each tier then keeps
the highest-ranked of what was found in it, up to its bound; what it does not keep goes to the next colder tier if the
target sends it there, and is dropped otherwise. Warmer tiers, contents and ids stay as they were, and the counters grow
by the numbers of those moves and drops. -/
theorem enforce_bounds_exact (P : Platform) {cfg : Settings} (hpolicy : ByKey cfg) (s : ContextScope) {w : World}
    (hclean : w.Clean) :
    ∃ w', (enforceBounds P cfg s).run.run w = (.ok (), w') ∧
      let σ := w.session.state
      let τ := w'.session.state
      (∀ t ≤ s,
        let found := {id | ∃ a, Candidate cfg s σ τ t a id}
        let kept := {id | τ.scopeOf id = some t}
        kept ⊆ found ∧ kept.ncard = (cfg.bounds.get t).elim found.ncard (min found.ncard) ∧
          (∀ id ∈ found \ kept, ∀ id' ∈ kept, σ.rank cfg id < σ.rank cfg id') ∧
          ((∀ bound, cfg.bounds.get t = some bound → found.ncard ≤ bound) → kept = found)) ∧
      (∀ t a id, Candidate cfg s σ τ t a id → τ.scopeOf id ≠ some t →
        (∃ c, t.colder = some c ∧ cfg.Demotes a ∧ Candidate cfg s σ τ c .demoted id) ∨
          ¬ (t.colder.isSome ∧ cfg.Demotes a) ∧ τ.items[id]? = none) ∧
      (∀ t, s < t → w'.session.stores.get t = w.session.stores.get t ∧
        ∀ (id : ItemId) (e : Entry), e.scope = t → (τ.items[id]? = some e ↔ σ.items[id]? = some e)) ∧
      (∀ (id : ItemId) (e' : Entry), τ.items[id]? = some e' → ∃ e : Entry, σ.items[id]? = some e ∧ e'.item = e.item) ∧
      τ.nextId = σ.nextId ∧
      τ.stats = { σ.stats with itemsDemoted := σ.stats.itemsDemoted + (movesColder cfg s σ τ).ncard
                               itemsEvicted := σ.stats.itemsEvicted + (drops cfg s σ τ).ncard } := by
  obtain ⟨w', hrun, hsweep, htrail⟩ := enforceBounds_clean P cfg s hclean
  have henforced := enforced_sweep hpolicy ranked_rank hsweep
  have hframe : Frame s w.session w'.session := by
    have hkeeps : Keeps (Frame s) (enforceBounds P cfg s) w := frame_allows.enforceBounds le_rfl
    have hstep := hkeeps.step
    rwa [hrun] at hstep
  refine ⟨w', hrun, fun t ht => ?_, fun t a id hcand hleft => ?_, fun t ht => ?_, fun id e' he' => ?_, ?_, ?_⟩
  · obtain ⟨X, hX, hkept⟩ := henforced.keeps t ht
    have hfound : {id | ∃ a, Candidate cfg s w.session.state w'.session.state t a id} = (X : Set ItemId) :=
      Set.ext fun id => (hX id).symm
    dsimp only
    rw [hfound, ← State.coe_pool, Set.ncard_coe_finset, Set.ncard_coe_finset]
    refine ⟨Finset.coe_subset.mpr hkept.subset, hkept.size, fun id hid => hkept.above id hid.1 hid.2, fun hfits => ?_⟩
    rw [hkept.eq_of_fits hfits]
  · by_cases hsent : t.colder.isSome ∧ cfg.Demotes a
    · obtain ⟨c, hc⟩ := Option.isSome_iff_exists.mp hsent.1
      exact Or.inl ⟨c, hc, hsent.2, hcand.demoted hleft hc hsent.2⟩
    · exact Or.inr ⟨hsent, henforced.gone t a id hcand hleft hsent⟩
  · exact ⟨hframe.stores t ht, fun id e he => hframe.entries id e (he ▸ ht)⟩
  · obtain ⟨e, he, hsinks⟩ := hsweep.descends id e' he'
    refine ⟨e, he, ?_⟩
    rcases hsinks with rfl | ⟨c, -, rfl⟩ <;> rfl
  · exact nextId_ends htrail.ends
  · obtain ⟨D, G, hD, hG, hstats⟩ := henforced.counted
    rw [← hD, ← hG, Set.ncard_coe_finset, Set.ncard_coe_finset]
    exact hstats

/-- The older of two items in major came there by a promotion: a bound of one moves it to minor. -/
theorem enforce_bounds_exact_promoted :
    let w := World.start.run notePlatform (manual none) [⟨.add .minor note, [], []⟩, ⟨.add .major note, [], [1]⟩,
      ⟨.promote [⟨0⟩] .minor .major, [], []⟩]
    ∃ w', (enforceBounds notePlatform tight .major).run.run w = (.ok (), w') ∧
      w'.session.state.scopeOf ⟨0⟩ = some .minor ∧ w'.session.state.scopeOf ⟨1⟩ = some .major ∧
      {id | w'.session.state.scopeOf id = some .major}.ncard =
        min {id | ∃ a, Candidate tight .major w.session.state w'.session.state .major a id}.ncard 1 := by
  intro w
  have hclean : w.Clean := by
    have hfates : w.fates = [] := by decide +kernel
    simp [World.Clean, hfates]
  obtain ⟨w', hrun, hkeeps, -⟩ := enforce_bounds_exact notePlatform (Or.inl rfl : ByKey tight) .major hclean
  have hw' : w' = ((enforceBounds notePlatform tight .major).run.run w).2 := by rw [hrun]
  have hscopes : w'.session.state.scopeOf ⟨0⟩ = some .minor ∧ w'.session.state.scopeOf ⟨1⟩ = some .major := by
    rw [hw']
    decide +kernel
  exact ⟨w', hrun, hscopes.1, hscopes.2, (hkeeps .major le_rfl).2.1⟩

end Semanticore.Context
