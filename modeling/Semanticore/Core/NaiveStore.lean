import Semanticore.Core.Backend
import Mathlib

/-!
# The naive store

The in-memory backend of `semanticore-core/src/storage.rs`, the one the reasoners of the crate run over. A transaction
stages its writes and applies them on commit; until then it sees the committed quads through them.
-/

namespace Semanticore.Core

theorem NamedNode.iri_injective : Function.Injective NamedNode.iri := by
  rintro ⟨a⟩ ⟨b⟩ h
  cases h
  rfl

instance : LinearOrder NamedNode := LinearOrder.lift' NamedNode.iri NamedNode.iri_injective

instance : Std.LawfulEqOrd NamedNode := ⟨compare_eq_iff_eq.mp⟩

namespace Naive

variable {α : Type}

structure MemStore where
  quads : List Quad

structure MemTx where
  writable : Bool
  inserted : List Quad
  removed : List Quad

/-- `Vec::swap_remove`: the last element takes the place of the one that goes. -/
def swapRemove (l : List α) (i : Nat) : List α :=
  match l.getLast? with
  | some last => (l.set i last).dropLast
  | none => []

def readOnlyError : StorageError := .backend "read-only transaction"

namespace MemTx

/-- `snapshot`: the committed quads with the staged writes of the transaction applied. -/
def snapshot (tx : MemTx) (store : MemStore) : List Quad := store.quads.filter (· ∉ tx.removed) ++ tx.inserted

def contains (tx : MemTx) (store : MemStore) (q : Quad) : Bool := q ∈ tx.snapshot store

def insert (tx : MemTx) (store : MemStore) (q : Quad) : Except StorageError Bool × MemTx :=
  if tx.writable = false then (.error readOnlyError, tx)
  else if tx.contains store q then (.ok false, tx)
  else
    match tx.removed.findIdx? (· = q) with
    | some i => (.ok true, { tx with removed := swapRemove tx.removed i })
    | none => (.ok true, { tx with inserted := tx.inserted ++ [q] })

def remove (tx : MemTx) (store : MemStore) (q : Quad) : Except StorageError Bool × MemTx :=
  if tx.writable = false then (.error readOnlyError, tx)
  else if !tx.contains store q then (.ok false, tx)
  else
    match tx.inserted.findIdx? (· = q) with
    | some i => (.ok true, { tx with inserted := swapRemove tx.inserted i })
    | none => (.ok true, { tx with removed := tx.removed ++ [q] })

end MemTx

def MemStore.namedGraphs (store : MemStore) : List NamedNode :=
  ((store.quads.filterMap fun q => match q.graph with
    | .named g => some g
    | .default => none).mergeSort (· ≤ ·)).destutter (· ≠ ·)

/-- `MemStore` and `MemTx`. -/
def memStorage : Storage where
  Store := MemStore
  Tx := MemTx
  beginRead _ := .ok { writable := false, inserted := [], removed := [] }
  beginWrite _ := .ok { writable := true, inserted := [], removed := [] }
  insert store tx q := tx.insert store q
  remove store tx q := tx.remove store q
  contains store tx q := .ok (tx.contains store q)
  quadsForPattern store tx s p o g := ((tx.snapshot store).filter (matchesPattern · s p o g)).map .ok
  commit store tx := (.ok (), { quads := store.quads.filter (· ∉ tx.removed) ++ tx.inserted })
  rollback store _ := (.ok (), store)
  quadCount store := .ok store.quads.length
  namedGraphs store := .ok store.namedGraphs
  readCommitted _ := true

/-! ## Staged writes -/

theorem swapRemove_perm {l : List α} {i : Nat} {a : α} (h : l[i]? = some a) : (a :: swapRemove l i).Perm l := by
  induction l using List.reverseRecOn with
  | nil => simp at h
  | append_singleton init last _ =>
      simp only [swapRemove, List.getLast?_concat]
      by_cases hi : i < init.length
      · rw [List.getElem?_append_left hi, List.getElem?_eq_getElem hi, Option.some.injEq] at h
        have hinit : init = init.take i ++ a :: init.drop (i + 1) := by
          rw [← h, ← List.drop_eq_getElem_cons hi, List.take_append_drop]
        rw [List.set_append_left _ _ hi, List.dropLast_concat, List.set_eq_take_append_cons_drop, if_pos hi]
        have hleft : (a :: (init.take i ++ last :: init.drop (i + 1))).Perm
            (last :: a :: (init.take i ++ init.drop (i + 1))) := (List.perm_middle.cons a).trans (.swap last a _)
        have hright : (init ++ [last]).Perm (last :: a :: (init.take i ++ init.drop (i + 1))) :=
          (List.perm_append_singleton last init).trans ((hinit ▸ List.perm_middle :).cons last)
        exact hleft.trans hright.symm
      · have hlast : i = init.length := by
          have hlt := (List.getElem?_eq_some_iff.mp h).1
          simp only [List.length_append, List.length_singleton] at hlt
          omega
        subst hlast
        have ha : last = a := by simpa using h
        subst ha
        simpa using (List.perm_append_singleton last init).symm

/-- Taking the element found off a list without repeats. -/
theorem swapRemove_found {l : List Quad} {i : Nat} {q : Quad} (hl : l.Nodup) (h : l.findIdx? (· = q) = some i) :
    (swapRemove l i).Nodup ∧ ∀ r, r ∈ swapRemove l i ↔ r ∈ l ∧ r ≠ q := by
  obtain ⟨hi, hq, -⟩ := List.findIdx?_eq_some_iff_getElem.mp h
  have hperm := swapRemove_perm (List.getElem?_eq_some_iff.mpr ⟨hi, of_decide_eq_true hq⟩)
  obtain ⟨hnew, hnodup⟩ := List.nodup_cons.mp (hperm.nodup_iff.mpr hl)
  refine ⟨hnodup, fun r => ?_⟩
  rw [← hperm.mem_iff, List.mem_cons]
  constructor
  · exact fun hr => ⟨Or.inr hr, fun heq => hnew (heq ▸ hr)⟩
  · rintro ⟨rfl | hr, hne⟩
    · exact (hne rfl).elim
    · exact hr

/-- The store lists each quad once, and a transaction stages the removal of quads that are there and the insertion of quads
that are not. -/
structure Staged (store : MemStore) (tx : MemTx) : Prop where
  quads : store.quads.Nodup
  removed : tx.removed.Nodup
  inserted : tx.inserted.Nodup
  known : ∀ q ∈ tx.removed, q ∈ store.quads
  new : ∀ q ∈ tx.inserted, q ∉ store.quads

variable {store : MemStore} {tx : MemTx} {q r : Quad}

theorem mem_snapshot : q ∈ tx.snapshot store ↔ (q ∈ store.quads ∧ q ∉ tx.removed) ∨ q ∈ tx.inserted := by
  simp [MemTx.snapshot]

@[simp] theorem contains_eq : tx.contains store q = decide (q ∈ tx.snapshot store) := rfl

theorem Staged.nodup (h : Staged store tx) : (tx.snapshot store).Nodup := by
  refine (h.quads.filter _).append h.inserted fun q hq hins => ?_
  exact h.new q hins (List.mem_of_mem_filter hq)

theorem not_mem_of_findIdx? {l : List Quad} (h : l.findIdx? (· = q) = none) : q ∉ l := fun hq => by
  simpa using List.findIdx?_eq_none_iff.mp h q hq

theorem Staged.insert (h : Staged store tx) (hw : tx.writable = true) (q : Quad) :
    ∃ tx', tx.insert store q = (.ok (q ∉ tx.snapshot store), tx') ∧ tx'.writable = true ∧ Staged store tx' ∧
      ∀ r, r ∈ tx'.snapshot store ↔ r = q ∨ r ∈ tx.snapshot store := by
  by_cases hq : q ∈ tx.snapshot store
  · refine ⟨tx, by simp [MemTx.insert, hw, hq], hw, h, fun r => ?_⟩
    exact ⟨Or.inr, fun hr => hr.elim (· ▸ hq) id⟩
  · have hout := mt mem_snapshot.mpr hq
    cases hfind : tx.removed.findIdx? (· = q) with
    | some i =>
        obtain ⟨hnodup, hmem⟩ := swapRemove_found h.removed hfind
        have hremoved : q ∈ tx.removed := by
          obtain ⟨hi, heq, -⟩ := List.findIdx?_eq_some_iff_getElem.mp hfind
          exact of_decide_eq_true heq ▸ List.getElem_mem hi
        refine ⟨{ tx with removed := swapRemove tx.removed i }, by simp [MemTx.insert, hw, hq, hfind], hw, ?_, fun r => ?_⟩
        · exact { h with removed := hnodup, known := fun r hr => h.known r ((hmem r).mp hr).1 }
        · simp only [mem_snapshot, hmem]
          by_cases hr : r = q
          · simp [hr, h.known q hremoved]
          · simp [hr]
    | none =>
        have hremoved := not_mem_of_findIdx? hfind
        have hnew : q ∉ store.quads := fun hquads => hout (Or.inl ⟨hquads, hremoved⟩)
        refine ⟨{ tx with inserted := tx.inserted ++ [q] }, by simp [MemTx.insert, hw, hq, hfind], hw, ?_, fun r => ?_⟩
        · refine { h with inserted := ?_, new := ?_ }
          · exact (List.perm_append_singleton q _).nodup_iff.mpr (h.inserted.cons fun hins => hout (Or.inr hins))
          · simpa [or_imp, forall_and] using ⟨h.new, hnew⟩
        · simp only [mem_snapshot, List.mem_append, List.mem_singleton]
          tauto

theorem Staged.remove (h : Staged store tx) (hw : tx.writable = true) (q : Quad) :
    ∃ tx', tx.remove store q = (.ok (q ∈ tx.snapshot store), tx') ∧ tx'.writable = true ∧ Staged store tx' ∧
      ∀ r, r ∈ tx'.snapshot store ↔ r ≠ q ∧ r ∈ tx.snapshot store := by
  by_cases hq : q ∈ tx.snapshot store
  · have hin := mem_snapshot.mp hq
    cases hfind : tx.inserted.findIdx? (· = q) with
    | some i =>
        obtain ⟨hnodup, hmem⟩ := swapRemove_found h.inserted hfind
        have hinserted : q ∈ tx.inserted := by
          obtain ⟨hi, heq, -⟩ := List.findIdx?_eq_some_iff_getElem.mp hfind
          exact of_decide_eq_true heq ▸ List.getElem_mem hi
        refine ⟨{ tx with inserted := swapRemove tx.inserted i }, by simp [MemTx.remove, hw, hq, hfind], hw, ?_, fun r => ?_⟩
        · exact { h with inserted := hnodup, new := fun r hr => h.new r ((hmem r).mp hr).1 }
        · simp only [mem_snapshot, hmem]
          by_cases hr : r = q
          · simp [hr, h.new q hinserted]
          · simp [hr]
    | none =>
        have hinserted := not_mem_of_findIdx? hfind
        obtain ⟨hquads, hremoved⟩ := hin.resolve_right hinserted
        refine ⟨{ tx with removed := tx.removed ++ [q] }, by simp [MemTx.remove, hw, hq, hfind], hw, ?_, fun r => ?_⟩
        · refine { h with removed := ?_, known := ?_ }
          · exact (List.perm_append_singleton q _).nodup_iff.mpr (h.removed.cons hremoved)
          · simpa [or_imp, forall_and] using ⟨h.known, hquads⟩
        · simp only [mem_snapshot, List.mem_append, List.mem_singleton]
          by_cases hr : r = q
          · simp [hr, hinserted]
          · simp [hr]
  · refine ⟨tx, by simp [MemTx.remove, hw, hq], hw, h, fun r => ?_⟩
    exact ⟨fun hr => ⟨fun heq => hq (heq ▸ hr), hr⟩, And.right⟩

/-! ## A plain set of quads -/

theorem namedGraphs_spec (store : MemStore) :
    store.namedGraphs.Nodup ∧ ∀ g, g ∈ store.namedGraphs ↔ ∃ q ∈ store.quads, q.graph = .named g := by
  have hsorted : ∀ l : List NamedNode, (l.mergeSort (· ≤ ·)).destutter (· ≠ ·) = (l.mergeSort (· ≤ ·)).dedup := fun l =>
    List.Pairwise.destutter_eq_dedup (r := (· ≤ ·))
      ((List.pairwise_mergeSort (by simpa using fun a b c => le_trans) (by simp [le_total]) l).imp of_decide_eq_true)
  unfold MemStore.namedGraphs
  rw [hsorted]
  refine ⟨List.nodup_dedup _, fun g => ?_⟩
  simp only [List.mem_dedup, List.mem_mergeSort, List.mem_filterMap]
  refine exists_congr fun q => and_congr_right fun _ => ?_
  cases q.graph <;> simp

/-- One transaction at a time sees and leaves a plain set of quads. -/
def plainSet (Fit : Quad → Prop) (hbuilt : ∀ q, q.Built → Fit q) : memStorage.PlainSet Fit where
  holds store S := store.quads.Nodup ∧ store.quads.toFinset = S ∧ ∀ q ∈ S, Fit q
  writes store tx S := tx.writable = true ∧ Staged store tx ∧ (tx.snapshot store).toFinset = S ∧ ∀ q ∈ S, Fit q
  reads store tx S := tx = ⟨false, [], []⟩ ∧ store.quads.Nodup ∧ store.quads.toFinset = S
  fits h := h.2.2 _
  beginRead h := ⟨_, rfl, rfl, h.1, h.2.1⟩
  beginWrite := by
    rintro store S ⟨hnodup, rfl, hfit⟩
    exact ⟨_, rfl, rfl, ⟨hnodup, .nil, .nil, by simp, by simp⟩, by simp [MemTx.snapshot], hfit⟩
  insert := by
    rintro store tx S q ⟨hw, hstaged, rfl, hfit⟩ hq
    obtain ⟨tx', htx, hw', hstaged', hmem⟩ := hstaged.insert hw q
    refine ⟨tx', by simpa [memStorage] using htx, hw', hstaged', ?_, Finset.forall_mem_insert _ _ _ |>.mpr ⟨hq, hfit⟩⟩
    ext r
    simp [hmem]
  refuse _ hq h := (h (hbuilt _ hq)).elim
  remove := by
    rintro store tx S q ⟨hw, hstaged, rfl, hfit⟩ -
    obtain ⟨tx', htx, hw', hstaged', hmem⟩ := hstaged.remove hw q
    refine ⟨tx', by simpa [memStorage] using htx, hw', hstaged', ?_, fun r hr => hfit r (Finset.mem_of_mem_erase hr)⟩
    ext r
    simp [hmem]
  contains := by
    rintro store tx S q (⟨-, -, rfl, -⟩ | ⟨rfl, -, rfl⟩) - <;> simp [memStorage, MemTx.snapshot]
  quadsForPattern := by
    intro store tx S sub p o g h _
    have hsnapshot : (tx.snapshot store).Nodup ∧ (tx.snapshot store).toFinset = S := by
      rcases h with ⟨-, hstaged, rfl, -⟩ | ⟨rfl, hnodup, rfl⟩
      · exact ⟨hstaged.nodup, rfl⟩
      · simpa [MemTx.snapshot] using hnodup
    obtain ⟨hnodup, rfl⟩ := hsnapshot
    exact ⟨_, rfl, hnodup.filter _, by simp⟩
  commit := by
    rintro store tx S ⟨-, hstaged, rfl, hfit⟩
    exact ⟨_, rfl, hstaged.nodup, rfl, hfit⟩
  rollback _ := rfl
  readOnly q h := by
    obtain ⟨rfl, -⟩ := h
    exact ⟨⟨_, rfl⟩, _, rfl⟩
  commitReader := by
    rintro ⟨quads⟩ tx S ⟨rfl, -⟩
    simp [memStorage]
  rollbackReader _ _ := rfl
  snapshot _ h := by cases h
  quadCount := by
    rintro store S ⟨hnodup, rfl, -⟩
    simp [memStorage, List.toFinset_card_of_nodup hnodup]
  namedGraphs := by
    rintro store S ⟨-, rfl, -⟩
    exact ⟨_, rfl, (namedGraphs_spec store).1, by simpa using (namedGraphs_spec store).2⟩

end Naive

end Semanticore.Core
