import Semanticore.Context.Lemmas.Effects

/-!
# Sessions up to time and order

What remains of a Session when the times of touches, the order of quads in a store and the log are left out. Evictions
of different items commute on it, and an eviction commutes with a batch that does not have its item.
-/

namespace Semanticore.Context
open Semanticore.Core

/-- The entry without the times at which it was touched. -/
def Entry.timeless (e : Entry) : Entry := { e with lastTouch := 0, weightAt := 0 }

@[ext] structure View where
  items : ItemId → Option Entry
  holds : ContextScope → Quad → Prop
  nextId : UInt64
  stats : SessionStats

def Session.view (σ : Session) : View :=
  { items := fun id => σ.state.items[id]?.map Entry.timeless
    holds := fun s q => q ∈ σ.stores.get s
    nextId := σ.state.nextId
    stats := σ.state.stats }

variable {P : Platform} {cfg : Settings} {σ : Session} {v : View} {id a b : ItemId} {e : Entry} {scope s : ContextScope}
  {q : Quad} {batch batch' : List (ItemId × ContextItem)}

/-! ## Eviction -/

/-- Where eviction from its scope sends an entry. -/
def Entry.fallsTo (cfg : Settings) (e : Entry) : Option ContextScope := evictionTarget cfg e.scope e.arrival

/-- What the eviction of an item makes of the quad `q` in the store of `s`, which has it if `p`. -/
def relocated (P : Platform) (cfg : Settings) (id : ItemId) (s : ContextScope) (q : Quad) (p : Prop) : Option Entry → Prop
  | none => p
  | some e => (p ∨ e.fallsTo cfg = some s ∧ q ∈ encode P id e.item) ∧ ¬ (s = e.scope ∧ Owned id q)

/-- How many demotions and drops the eviction of an entry counts as. -/
def evictionCounts (cfg : Settings) : Option Entry → Nat × Nat
  | none => (0, 0)
  | some e => match e.fallsTo cfg with
      | some _ => (1, 0)
      | none => (0, 1)

/-- Evict an item from the scope it is in. -/
def View.evict (P : Platform) (cfg : Settings) (v : View) (id : ItemId) : View :=
  { v with
    items := Function.update v.items id ((v.items id).bind fun e => (e.fallsTo cfg).map fun colder => e.arrive colder .demoted)
    holds := fun s q => relocated P cfg id s q (v.holds s q) (v.items id)
    stats := { v.stats with itemsDemoted := v.stats.itemsDemoted + (evictionCounts cfg (v.items id)).1
                            itemsEvicted := v.stats.itemsEvicted + (evictionCounts cfg (v.items id)).2 } }

theorem relocated_of_not_owned {p : Prop} {o : Option Entry} (h : ¬ Owned id q) : relocated P cfg id s q p o ↔ p := by
  cases o with
  | none => rfl
  | some e =>
      have henc : q ∉ encode P id e.item := fun hq => h (owned_of_mem_encode hq)
      simp [relocated, h, henc]

/-- Evictions of different items leave each other's quads alone. -/
theorem relocated_comm {p : Prop} {o o' : Option Entry} (hne : a ≠ b) :
    relocated P cfg a s q (relocated P cfg b s q p o') o ↔ relocated P cfg b s q (relocated P cfg a s q p o) o' := by
  by_cases ha : Owned a q
  · have hb : ¬ Owned b q := fun hb => hne (ha.unique hb)
    have hp : relocated P cfg b s q p o' = p := propext (relocated_of_not_owned hb)
    rw [hp, relocated_of_not_owned hb]
  · have hp : relocated P cfg a s q p o = p := propext (relocated_of_not_owned ha)
    rw [hp, relocated_of_not_owned ha]

theorem View.evict_comm (v : View) (a b : ItemId) :
    (v.evict P cfg a).evict P cfg b = (v.evict P cfg b).evict P cfg a := by
  by_cases hne : a = b
  · rw [hne]
  have hb : (v.evict P cfg a).items b = v.items b := Function.update_of_ne (Ne.symm hne) ..
  have ha : (v.evict P cfg b).items a = v.items a := Function.update_of_ne hne ..
  refine View.ext ?_ ?_ rfl ?_
  · show Function.update _ b _ = Function.update _ a _
    rw [hb, ha]
    exact Function.update_comm hne ..
  · funext s q
    show relocated P cfg b s q _ _ = relocated P cfg a s q _ _
    rw [hb, ha]
    exact propext (relocated_comm (Ne.symm hne))
  · show SessionStats.mk .. = SessionStats.mk ..
    rw [hb, ha]
    simp only [View.evict, Nat.add_right_comm]

instance : RightCommutative (View.evict P cfg) := ⟨View.evict_comm⟩

/-- Evicting a live item of `scope` evicts it from the view. -/
theorem Session.view_evictVictim (he : σ.state.items[id]? = some e) (hs : e.scope = scope) :
    (σ.evictVictim P cfg scope id).view = σ.view.evict P cfg id := by
  subst hs
  have hv : σ.view.items id = some e.timeless := by simp [Session.view, he]
  unfold Session.evictVictim
  simp only [he]
  cases hfalls : evictionTarget cfg e.scope e.arrival with
  | some colder =>
      have hfalls' : e.timeless.fallsTo cfg = some colder := hfalls
      refine View.ext ?_ ?_ rfl ?_
      · funext id'
        show ((σ.moved P id e colder .demoted).state.items[id']?).map Entry.timeless = Function.update σ.view.items id _ id'
        rw [Session.items_moved, Function.update_apply, hv, Option.bind_some, hfalls']
        by_cases hid : id = id'
        · rw [if_pos hid, if_pos hid.symm]
          rfl
        · rw [if_neg hid, if_neg (Ne.symm hid)]
          rfl
      · funext s q
        show (q ∈ (σ.moved P id e colder .demoted).stores.get s) = relocated P cfg id s q _ _
        rw [Session.mem_moved, hv, relocated, hfalls', Option.some.injEq, eq_comm (a := colder)]
        rfl
      · show SessionStats.mk .. = SessionStats.mk ..
        rw [hv, evictionCounts, hfalls']
        rfl
  | none =>
      have hfalls' : e.timeless.fallsTo cfg = none := hfalls
      refine View.ext ?_ ?_ rfl ?_
      · funext id'
        show ((σ.dropped P id e).state.items[id']?).map Entry.timeless = Function.update σ.view.items id _ id'
        rw [Session.items_dropped, Function.update_apply, hv, Option.bind_some, hfalls']
        by_cases hid : id = id'
        · rw [if_pos hid, if_pos hid.symm]
          rfl
        · rw [if_neg hid, if_neg (Ne.symm hid)]
          rfl
      · funext s q
        show (q ∈ (σ.dropped P id e).stores.get s) = relocated P cfg id s q _ _
        rw [Session.mem_dropped, hv, relocated, hfalls']
        simp only [reduceCtorEq, false_and, or_false]
        rfl
      · show SessionStats.mk .. = SessionStats.mk ..
        rw [hv, evictionCounts, hfalls']
        rfl

/-! ## Batches -/

/-- The entry of an item of a batch. -/
def newEntry (scope : ContextScope) (batch : List (ItemId × ContextItem)) (id : ItemId) : Option Entry :=
  (batch.find? (·.1 = id)).map fun p => Entry.new p.2 scope .added 0

/-- Add a batch of new items. -/
def View.add (P : Platform) (v : View) (scope : ContextScope) (batch : List (ItemId × ContextItem)) : View :=
  { items := fun id => (newEntry scope batch id).or (v.items id)
    holds := fun s q => v.holds s q ∨ s = scope ∧ ∃ p ∈ batch, q ∈ encode P p.1 p.2
    nextId := v.nextId + UInt64.ofNat batch.length
    stats := { v.stats with itemsAdded := v.stats.itemsAdded + batch.length } }

theorem newEntry_of_not_mem (h : id ∉ batch.map Prod.fst) : newEntry scope batch id = none := by
  have hnone : batch.find? (·.1 = id) = none := by
    simp only [List.find?_eq_none, decide_eq_true_eq]
    rintro p hp rfl
    exact h (List.mem_map_of_mem hp)
  rw [newEntry, hnone, Option.map_none]

/-- An eviction commutes with a batch that does not have its item. -/
theorem View.add_evict (h : id ∉ batch.map Prod.fst) :
    (v.evict P cfg id).add P scope batch = (v.add P scope batch).evict P cfg id := by
  have hid : (v.add P scope batch).items id = v.items id := by simp [View.add, newEntry_of_not_mem h]
  refine View.ext ?_ ?_ rfl ?_
  · funext id'
    show (newEntry scope batch id').or (Function.update v.items id _ id') =
      Function.update (v.add P scope batch).items id _ id'
    rw [hid, Function.update_apply, Function.update_apply]
    by_cases heq : id' = id
    · rw [if_pos heq, if_pos heq, heq, newEntry_of_not_mem h, Option.none_or]
    · rw [if_neg heq, if_neg heq]
      rfl
  · funext s q
    show (relocated P cfg id s q _ _ ∨ _) = relocated P cfg id s q (v.holds s q ∨ _) _
    rw [hid]
    by_cases ho : Owned id q
    · have hnot : ¬ (s = scope ∧ ∃ p ∈ batch, q ∈ encode P p.1 p.2) := by
        rintro ⟨-, p, hp, henc⟩
        exact h ((owned_of_mem_encode henc).unique ho ▸ List.mem_map_of_mem hp)
      simp only [hnot, or_false]
    · rw [relocated_of_not_owned ho, relocated_of_not_owned ho]
  · show SessionStats.mk .. = SessionStats.mk ..
    rw [hid]
    rfl

theorem View.add_foldl_evict (R : Multiset ItemId) (h : ∀ id ∈ R, id ∉ batch.map Prod.fst) :
    (R.foldl (View.evict P cfg) v).add P scope batch = R.foldl (View.evict P cfg) (v.add P scope batch) := by
  induction R using Multiset.induction generalizing v with
  | empty => rfl
  | cons id R ih =>
      rw [Multiset.foldl_cons, Multiset.foldl_cons, ih fun id' hid' => h id' (Multiset.mem_cons_of_mem hid'),
        View.add_evict (h id (Multiset.mem_cons_self id R))]

/-- Adding two batches of different items adds both at once. -/
theorem View.add_append (h : ∀ id ∈ batch.map Prod.fst, id ∉ batch'.map Prod.fst) :
    (v.add P scope batch).add P scope batch' = v.add P scope (batch ++ batch') := by
  refine View.ext ?_ ?_ ?_ ?_
  · funext id
    show (newEntry scope batch' id).or ((newEntry scope batch id).or (v.items id)) =
      (newEntry scope (batch ++ batch') id).or (v.items id)
    have happend : newEntry scope (batch ++ batch') id = (newEntry scope batch id).or (newEntry scope batch' id) := by
      rw [newEntry, List.find?_append, Option.map_or]
      rfl
    rw [happend]
    by_cases hid : id ∈ batch.map Prod.fst
    · rw [newEntry_of_not_mem (h id hid), Option.none_or, Option.or_none]
    · rw [newEntry_of_not_mem hid, Option.none_or, Option.none_or]
  · funext s q
    show ((v.holds s q ∨ _) ∨ _) = (v.holds s q ∨ _)
    simp only [List.mem_append, or_and_right, exists_or, and_or_left, or_assoc]
  · show v.nextId + _ + _ = v.nextId + _
    rw [List.length_append, UInt64.ofNat_add, UInt64.add_assoc]
  · show SessionStats.mk .. = SessionStats.mk ..
    simp only [View.add, List.length_append, Nat.add_assoc]

theorem Session.view_added {items : List ContextItem} {now : Instant}
    (hroom : σ.state.nextId.toNat + items.length < 2 ^ 64) :
    (σ.added P scope items now).view = σ.view.add P scope (σ.batch items) := by
  refine View.ext ?_ ?_ ?_ rfl
  · funext id
    show ((σ.added P scope items now).state.items[id]?).map Entry.timeless =
      (newEntry scope (σ.batch items) id).or (σ.state.items[id]?.map Entry.timeless)
    have hitems := getElem?_insertAll (f := fun item => Entry.new item scope .added now) (batch_nodup hroom) σ.state.items id
    rw [show (σ.added P scope items now).state.items[id]? = _ from hitems, newEntry]
    cases (σ.batch items).find? (·.1 = id) <;> rfl
  · funext s q
    exact propext Session.mem_added
  · show σ.state.nextId + UInt64.ofNat items.length = σ.state.nextId + UInt64.ofNat (σ.batch items).length
    rw [Session.batch_length]

end Semanticore.Context
