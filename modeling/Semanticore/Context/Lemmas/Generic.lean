import Semanticore.Context.Generic
import Semanticore.Context.Lemmas.Query

/-!
# Calls on a store

What the calls that a Session makes on one of its stores do, for a store that is a plain set of quads: a write
transaction changes the set as its closure says or leaves it as it was.
-/

namespace Semanticore.Context.Generic
open Semanticore.Core Semanticore.Lib

variable {B : Storage} {Fit : Quad → Prop} {scope : ContextScope} {v v' : World B}

/-! ## What calls leave alone -/

/-- No call on a store fails for a reason of the backend's own. -/
def World.Quiet (v : World B) : Prop := ∀ f ∈ v.faults, f = false

/-- Calls have changed nothing but the store of one scope. -/
structure Touches (scope : ContextScope) (v v' : World B) : Prop where
  state : v'.state = v.state
  elapsed : v'.elapsed = v.elapsed
  now : v'.now = v.now
  others : ∀ scope' ≠ scope, v'.stores.get scope' = v.stores.get scope'
  quiet : v.Quiet → v'.Quiet

instance : Std.Refl (Touches (B := B) scope) := ⟨fun _ => ⟨rfl, rfl, rfl, fun _ _ => rfl, id⟩⟩

instance : IsTrans (World B) (Touches scope) :=
  ⟨fun _ _ _ h h' => ⟨h'.state.trans h.state, h'.elapsed.trans h.elapsed, h'.now.trans h.now,
    fun s hs => (h'.others s hs).trans (h.others s hs), fun hv => h'.quiet (h.quiet hv)⟩⟩

theorem touches_faults (v : World B) : Touches scope v { v with faults := v.faults.tail } :=
  ⟨rfl, rfl, rfl, fun _ _ => rfl, fun hv f hf => hv f (List.mem_of_mem_tail hf)⟩

/-- A call answers as the backend does, or fails without effect. -/
theorem call_spec {α β : Type} {before : β} {x : Except StorageError α × β} {E : Halt → World B → Prop} :
    Runs (Touches scope) (call before x) v (fun r v' => v'.stores = v.stores ∧
      (r = (.error .storage, before) ∧ ¬ v.Quiet ∨ r = (mapErr x.1, x.2))) E := by
  unfold call
  refine Runs.bind (Runs.read (Q := fun w v' => w = v ∧ v' = v) ⟨rfl, rfl⟩) fun w v₁ _ h₁ => ?_
  obtain ⟨rfl, rfl⟩ := h₁
  refine Runs.bind (Runs.write (Q := fun _ v' => v' = { v₁ with faults := v₁.faults.tail }) (touches_faults v₁) rfl)
    fun _ v₂ _ h₂ => ?_
  subst h₂
  split
  · rename_i h
    refine Runs.ret ⟨rfl, Or.inl ⟨rfl, fun hquiet => ?_⟩⟩
    cases hfaults : v₁.faults with
    | nil =>
        rw [hfaults] at h
        cases h
    | cons f rest =>
        rw [hfaults] at h
        have hf := hquiet f (by rw [hfaults]; exact List.mem_cons_self)
        exact absurd (hf.symm.trans h) (by decide)
  · exact Runs.ret ⟨rfl, Or.inr rfl⟩

theorem store_spec {E : Halt → World B → Prop} :
    Runs (Touches scope) (store scope) v (fun s v' => s = v.stores.get scope ∧ v' = v) E :=
  ⟨Std.Refl.refl v, rfl, rfl⟩

theorem getState_spec {E : Halt → World B → Prop} :
    Runs (Touches scope) getState v (fun st v' => st = v.state ∧ v' = v) E :=
  ⟨Std.Refl.refl v, rfl, rfl⟩

theorem liftExcept_spec {α : Type} {a : α} {E : Halt → World B → Prop} :
    Runs (Touches scope) (liftExcept (.ok a)) v (fun b v' => b = a ∧ v' = v) E :=
  Runs.ret ⟨rfl, rfl⟩

theorem setStore_spec {s : B.Store} {E : Halt → World B → Prop} : Runs (Touches scope) (setStore scope s) v
    (fun _ v' => v'.stores.get scope = s) E := by
  refine ⟨⟨rfl, rfl, rfl, fun s' hs => ?_, id⟩, ?_⟩
  · show (v.stores.set scope s).get s' = v.stores.get s'
    rw [Tiers.get_set, if_neg hs.symm]
  · exact Tiers.get_set_self ..

/-! ## Closures -/

variable (K : B.PlainSet Fit)

/-- A closure turns the set that its transaction sees into another one, or returns an error of the store. In a quiet
world it returns an error only if `X` does not hold. If it returns none, `G` holds. -/
def Writes (scope : ContextScope) (f : Closure B) (after : Finset Quad → Finset Quad) (X G : Prop) : Prop :=
  ∀ v tx S, K.writes (v.stores.get scope) tx S → (∀ q ∈ S, Fit q) →
    Runs (Touches scope) (f tx) v (fun r v' => v'.stores = v.stores ∧ ∃ S', K.writes (v.stores.get scope) r.2 S' ∧
      (r.1 = .ok () ∧ S' = after S ∧ G ∨ r.1 = .error .storage ∧ (v.Quiet → ¬ X))) fun _ _ => False

theorem writes_insertAll (quads : List Quad) (hbuilt : ∀ q ∈ quads, ¬ Fit q → q.Built) :
    Writes K scope (insertAll scope quads) (· ∪ quads.toFinset) (∀ q ∈ quads, Fit q) (∀ q ∈ quads, Fit q) := by
  induction quads with
  | nil =>
      intro v tx S hS _
      exact Runs.ret ⟨rfl, S, hS, Or.inl ⟨rfl, by simp, by simp⟩⟩
  | cons q quads ih =>
      intro v tx S hS hfit
      unfold insertAll forEach
      refine store_spec.bind fun s v₁ _ h₁ => call_spec.bind fun r v₂ h hr => ?_
      obtain ⟨rfl, rfl⟩ := h₁
      obtain ⟨hstores, ⟨rfl, hloud⟩ | rfl⟩ := hr
      · exact Runs.ret ⟨hstores, S, hS, Or.inr ⟨rfl, fun hquiet => (hloud hquiet).elim⟩⟩
      · by_cases hq : Fit q
        · obtain ⟨tx', htx', hS'⟩ := K.insert hS hq
          rw [htx']
          have hfit' : ∀ r ∈ insert q S, Fit r := Finset.forall_mem_insert _ _ _ |>.mpr ⟨hq, hfit⟩
          refine (ih (fun r hr => hbuilt r (List.mem_cons_of_mem _ hr)) v₂ tx' _ (hstores ▸ hS') hfit').mono ?_
            fun _ _ _ => id
          rintro r v₃ - ⟨hstores', S', hS', hres⟩
          refine ⟨hstores'.trans hstores, S', hstores ▸ hS', hres.imp ?_ ?_⟩
          · rintro ⟨hok, rfl, hall⟩
            refine ⟨hok, ?_, List.forall_mem_cons.mpr ⟨hq, hall⟩⟩
            show insert q S ∪ quads.toFinset = S ∪ (q :: quads).toFinset
            rw [List.toFinset_cons, Finset.insert_union, Finset.union_insert]
          · rintro ⟨herr, hloud⟩
            exact ⟨herr, fun hquiet hall => hloud (h.quiet hquiet) (List.forall_mem_cons.mp hall).2⟩
        · obtain ⟨e, he⟩ := K.refuse hS (hbuilt q List.mem_cons_self hq) hq
          rw [he]
          exact Runs.ret ⟨hstores, S, hS, Or.inr ⟨rfl, fun _ hall => hq (hall q List.mem_cons_self)⟩⟩

theorem writes_removeAll (quads : List Quad) (hfits : ∀ q ∈ quads, Fit q) :
    Writes K scope (removeAll scope quads) (· \ quads.toFinset) True True := by
  induction quads with
  | nil =>
      intro v tx S hS _
      exact Runs.ret ⟨rfl, S, hS, Or.inl ⟨rfl, by simp, trivial⟩⟩
  | cons q quads ih =>
      intro v tx S hS hfit
      unfold removeAll forEach
      refine store_spec.bind fun s v₁ _ h₁ => call_spec.bind fun r v₂ h hr => ?_
      obtain ⟨rfl, rfl⟩ := h₁
      obtain ⟨hstores, ⟨rfl, hloud⟩ | rfl⟩ := hr
      · exact Runs.ret ⟨hstores, S, hS, Or.inr ⟨rfl, fun hquiet => (hloud hquiet).elim⟩⟩
      · obtain ⟨tx', htx', hS'⟩ := K.remove hS (hfits q List.mem_cons_self)
        rw [htx']
        have hfit' : ∀ r ∈ S.erase q, Fit r := fun r hr => hfit r (Finset.mem_of_mem_erase hr)
        refine (ih (fun r hr => hfits r (List.mem_cons_of_mem _ hr)) v₂ tx' _ (hstores ▸ hS') hfit').mono ?_
          fun _ _ _ => id
        rintro r v₃ - ⟨hstores', S', hS', hres⟩
        refine ⟨hstores'.trans hstores, S', hstores ▸ hS', hres.imp ?_ ?_⟩
        · rintro ⟨hok, rfl, -⟩
          refine ⟨hok, ?_, trivial⟩
          show S.erase q \ quads.toFinset = S \ (q :: quads).toFinset
          rw [List.toFinset_cons, Finset.erase_sdiff_comm, Finset.sdiff_insert]
        · rintro ⟨herr, hloud⟩
          exact ⟨herr, fun hquiet => hloud (h.quiet hquiet)⟩

/-- What a transaction reads is in the set it sees. -/
theorem collect_spec {tx : B.Tx} {S : Finset Quad} {s : Option NamedOrBlankNode} {p : Option NamedNode}
    {o : Option Term} {g : Option NamedOrDefault} {E : Halt → World B → Prop}
    (h : K.writes (v.stores.get scope) tx S ∨ K.reads (v.stores.get scope) tx S) (ho : BuiltObject o) :
    Runs (Touches scope) (collect scope tx s p o g) v (fun r v' => v'.stores = v.stores ∧
      (r = .error .storage ∧ ¬ v.Quiet ∨
        ∃ quads : List Quad, r = .ok quads ∧ quads.Nodup ∧ ∀ q, q ∈ quads ↔ q ∈ S ∧ matchesPattern q s p o g)) E := by
  unfold collect
  refine store_spec.bind fun s' v₁ _ h₁ => call_spec.bind fun r v₂ _ hr => ?_
  obtain ⟨rfl, rfl⟩ := h₁
  obtain ⟨hstores, ⟨rfl, hloud⟩ | rfl⟩ := hr
  · exact Runs.ret ⟨hstores, Or.inl ⟨rfl, hloud⟩⟩
  · obtain ⟨quads, hquads, hnodup, hmem⟩ := K.collect s p o g h ho
    rw [hquads]
    exact Runs.ret ⟨hstores, Or.inr ⟨quads, rfl, hnodup, hmem⟩⟩

theorem writes_deleteQuads (id : ItemId) :
    Writes K scope (deleteQuads scope id) (·.filter (¬ Owned id ·)) True True := by
  intro v tx S hS hfit
  have hbuilt : BuiltObject none := fun _ hl => by cases hl
  unfold deleteQuads
  refine (collect_spec K (.inl hS) hbuilt).bind fun r v₁ h₁ hr => ?_
  obtain ⟨hstores₁, ⟨rfl, hloud⟩ | ⟨quads, rfl, -, hquads⟩⟩ := hr
  · exact Runs.ret ⟨hstores₁, S, hS, Or.inr ⟨rfl, fun hquiet => (hloud hquiet).elim⟩⟩
  · refine (collect_spec K (.inl (hstores₁ ▸ hS)) hbuilt).bind fun r v₂ h₂ hr => ?_
    obtain ⟨hstores₂, ⟨rfl, hloud⟩ | ⟨record, rfl, -, hrecord⟩⟩ := hr
    · refine Runs.ret ⟨hstores₂.trans hstores₁, S, hS, Or.inr ⟨rfl, fun hquiet => ?_⟩⟩
      exact (hloud (h₁.quiet hquiet)).elim
    · have hstores := hstores₂.trans hstores₁
      have hfits : ∀ q ∈ quads ++ record, Fit q := by
        intro q hq
        rcases List.mem_append.mp hq with hq | hq
        · exact hfit q ((hquads q).mp hq).1
        · exact hfit q ((hrecord q).mp hq).1
      refine (writes_removeAll K _ hfits v₂ tx S (hstores ▸ hS) hfit).mono ?_ fun _ _ _ h => h
      rintro r v₃ - ⟨hstores₃, S', hS', hres⟩
      refine ⟨hstores₃.trans hstores, S', hstores ▸ hS', hres.imp ?_ ?_⟩
      · rintro ⟨hok, rfl, -⟩
        refine ⟨hok, ?_, trivial⟩
        show S \ (quads ++ record).toFinset = S.filter (¬ Owned id ·)
        ext q
        rw [Finset.mem_filter, Finset.mem_sdiff, List.mem_toFinset, List.mem_append, hquads, hrecord]
        simp only [Owned, matchesPattern, Option.all_none, Option.all_some, Bool.true_and, Bool.and_true,
          Bool.and_eq_true, decide_eq_true_eq]
        tauto
      · rintro ⟨herr, hloud⟩
        exact ⟨herr, fun hquiet => hloud (h₂.quiet (h₁.quiet hquiet))⟩

/-! ## Transactions -/

/-- A write transaction changes the set of its store as the closure says, or fails and leaves it as it was. -/
theorem withWrite_spec {f : Closure B} {after : Finset Quad → Finset Quad} {X G : Prop} {S : Finset Quad}
    (hf : Writes K scope f after X G) (hS : K.holds (v.stores.get scope) S) :
    Runs (Touches scope) (withWrite scope f) v
      (fun _ v' => K.holds (v'.stores.get scope) (after S) ∧ G)
      fun e v' => e = .err .storage ∧ K.holds (v'.stores.get scope) S ∧ (v.Quiet → ¬ X) := by
  unfold withWrite
  refine store_spec.bind fun s v₁ _ h₁ => call_spec.bind fun r v₂ h₂ hr => ?_
  obtain ⟨rfl, rfl⟩ := h₁
  obtain ⟨hstores₂, ⟨rfl, hloud⟩ | rfl⟩ := hr
  · refine Runs.exit ⟨rfl, ?_, fun hquiet => (hloud hquiet).elim⟩
    rw [hstores₂]
    exact hS
  · obtain ⟨tx, hbegin, htx⟩ := K.beginWrite hS
    rw [hbegin]
    refine liftExcept_spec.bind fun tx' v' _ htx' => ?_
    obtain ⟨rfl, rfl⟩ := htx'
    have hclosure := hf v' tx' S (hstores₂ ▸ htx) fun q => K.fits hS
    refine (hclosure.mono (fun _ _ _ => id) fun _ _ _ => False.elim).bind fun r v₃ h₃ hr => ?_
    obtain ⟨hstores₃, S', hS', ⟨hok, rfl, hG⟩ | ⟨herr, hloud⟩⟩ := hr
    · obtain ⟨r, tx''⟩ := r
      cases hok
      refine store_spec.bind fun s v₄ _ h₄ => store_spec.bind fun s' v₅ _ h₅ => call_spec.bind fun r v₆ h₆ hr => ?_
      obtain ⟨rfl, rfl⟩ := h₄
      obtain ⟨rfl, rfl⟩ := h₅
      rw [hstores₃] at hr
      obtain ⟨-, ⟨rfl, hloud⟩ | rfl⟩ := hr
      · refine setStore_spec.bind fun _ v₇ _ h₇ => Runs.exit ⟨rfl, ?_, fun hquiet => ?_⟩
        · rw [h₇, hstores₂]
          exact hS
        · exact (hloud (h₃.quiet (h₂.quiet hquiet))).elim
      · obtain ⟨s', hcommit, hs'⟩ := K.commit hS'
        rw [hcommit]
        refine setStore_spec.bind fun _ v₇ _ h₇ => Runs.ret ⟨?_, hG⟩
        rw [h₇]
        exact hs'
    · obtain ⟨r, tx''⟩ := r
      cases herr
      refine store_spec.bind fun s v₄ _ h₄ => store_spec.bind fun s' v₅ _ h₅ => call_spec.bind fun r v₆ h₆ hr => ?_
      obtain ⟨rfl, rfl⟩ := h₄
      obtain ⟨rfl, rfl⟩ := h₅
      rw [hstores₃] at hr
      have hafter : r.2 = v'.stores.get scope := by
        rcases hr.2 with ⟨rfl, -⟩ | rfl
        · rfl
        · exact congrArg Prod.snd (K.rollback hS')
      refine setStore_spec.bind fun _ v₇ _ h₇ => Runs.exit ⟨rfl, ?_, fun hquiet => hloud (h₂.quiet hquiet)⟩
      rw [h₇, hafter, hstores₂]
      exact hS

/-- A consulted scope is read as it is, or the call fails. -/
theorem consult_spec {pattern : QuadPattern} {S : Finset Quad} (hS : K.holds (v.stores.get scope) S)
    (ho : BuiltObject pattern.object) :
    Runs (Touches scope) (consult pattern scope) v
      (fun r v' => v'.stores.get scope = v.stores.get scope ∧ ∃ quads : List Quad, quads.Nodup ∧
        (∀ q, q ∈ quads ↔ q ∈ S ∧ matchesPattern q pattern.subject pattern.predicate pattern.object none) ∧
        r = ((matchedItems v.state scope quads).1,
          (matchedItems v.state scope quads).2.toList.map fun id => (id, scope)))
      fun e v' => e = .err .storage ∧ v'.stores.get scope = v.stores.get scope ∧ ¬ v.Quiet := by
  unfold consult
  refine store_spec.bind fun s v₁ _ h₁ => call_spec.bind fun r v₂ h₂ hr => ?_
  obtain ⟨rfl, rfl⟩ := h₁
  obtain ⟨hstores₂, ⟨rfl, hloud⟩ | rfl⟩ := hr
  · exact Runs.exit ⟨rfl, by rw [hstores₂], hloud⟩
  obtain ⟨tx, hbegin, htx⟩ := K.beginRead hS
  rw [hbegin]
  refine liftExcept_spec.bind fun tx' v' _ htx' => ?_
  obtain ⟨rfl, rfl⟩ := htx'
  rw [← hstores₂] at htx
  refine (collect_spec K (.inr htx) ho).bind fun r v₃ h₃ hr => ?_
  obtain ⟨hstores₃, ⟨rfl, hloud⟩ | ⟨quads, rfl, hnodup, hmem⟩⟩ := hr
  · exact Runs.exit ⟨rfl, by rw [hstores₃, hstores₂], fun hquiet => hloud (h₂.quiet hquiet)⟩
  refine liftExcept_spec.bind fun quads' v'' _ h => ?_
  obtain ⟨rfl, rfl⟩ := h
  refine store_spec.bind fun s v₄ _ h₄ => store_spec.bind fun s' v₅ _ h₅ => call_spec.bind fun r v₆ h₆ hr => ?_
  obtain ⟨rfl, rfl⟩ := h₄
  obtain ⟨rfl, rfl⟩ := h₅
  rw [hstores₃, K.rollbackReader _ htx] at hr
  obtain ⟨r, after⟩ := r
  have hafter : after = v'.stores.get scope := by
    rcases hr.2 with ⟨h, -⟩ | h <;> cases h <;> rfl
  refine setStore_spec.bind fun _ v₇ h₇ hstore => ?_
  rw [hafter, hstores₂] at hstore
  have hres : r = .error .storage ∧ ¬ v₅.Quiet ∨ r = .ok () := by
    rcases hr.2 with ⟨h, hloud⟩ | h <;> cases h
    · exact Or.inl ⟨rfl, hloud⟩
    · exact Or.inr rfl
  have hlift : Runs (Touches scope) (liftExcept (B := B) r) v₇ (fun _ v'' => v'' = v₇)
      fun e v'' => e = .err .storage ∧ v''.stores.get scope = v₁.stores.get scope ∧ ¬ v₁.Quiet := by
    rcases hres with ⟨rfl, hloud⟩ | rfl
    · exact Runs.exit ⟨rfl, hstore, fun hquiet => hloud (h₃.quiet (h₂.quiet hquiet))⟩
    · exact Runs.ret rfl
  refine hlift.bind fun _ v₈ _ h₈ => ?_
  subst h₈
  refine getState_spec.bind fun st v₉ _ h₉ => ?_
  obtain ⟨rfl, rfl⟩ := h₉
  refine Runs.ret ⟨hstore, quads', hnodup, hmem, ?_⟩
  rw [h₇.state, h₆.state, h₃.state, h₂.state]

end Semanticore.Context.Generic
