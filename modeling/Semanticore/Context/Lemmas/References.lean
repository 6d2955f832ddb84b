import Mathlib.Data.Set.Card
import Semanticore.Context.Lemmas.Index

/-!
# Counting references

The counts of `auto_promote`, taken over the index item by item, against the sets of items they count.
-/

namespace Semanticore.Context

/-- The other live items, in any tier, whose provenance names `id`. -/
def State.citers (st : State) (id : ItemId) : Set ItemId :=
  {c | c ≠ id ∧ ∃ e, st.items[c]? = some e ∧ id ∈ e.item.provenance.derivedFrom}

variable {st : State} {id : ItemId}

/-- One more reference to each listed id. -/
theorem count_references (ids : List ItemId) (refs : Std.TreeMap ItemId Nat) (id : ItemId) :
    (ids.foldl (fun refs c => refs.alter c fun n => some (n.getD 0 + 1)) refs)[id]?.getD 0 =
      refs[id]?.getD 0 + ids.count id := by
  induction ids generalizing refs with
  | nil => rfl
  | cons c ids ih =>
      rw [List.foldl_cons, ih, Std.TreeMap.getElem?_alter, List.count_cons]
      by_cases hc : c = id
      · subst hc
        simp [Nat.add_right_comm, Nat.add_assoc]
      · have hcmp : compare c id ≠ .eq := fun h => hc (compare_eq_iff_eq.mp h)
        simp [hc, hcmp]

/-- An item counts at most once for an id, and not for its own. -/
theorem count_cited (cited : List ItemId) (own id : ItemId) :
    ((Std.TreeSet.ofList cited).toList.filter (· ≠ own)).count id = if own ≠ id ∧ id ∈ cited then 1 else 0 := by
  have hnodup : ((Std.TreeSet.ofList cited).toList.filter (· ≠ own)).Nodup := by
    refine List.Nodup.filter _ (Std.TreeSet.distinct_toList.imp fun h heq => h ?_)
    exact compare_eq_iff_eq.mpr heq
  have hmem : id ∈ (Std.TreeSet.ofList cited).toList.filter (· ≠ own) ↔ own ≠ id ∧ id ∈ cited := by
    simp only [List.mem_filter, Std.TreeSet.mem_toList, Std.TreeSet.mem_ofList, List.contains_iff_mem, ne_eq,
      decide_eq_true_eq]
    exact ⟨fun h => ⟨Ne.symm h.2, h.1⟩, fun h => ⟨h.2, Ne.symm h.1⟩⟩
  rw [hnodup.count, if_congr hmem rfl rfl]

theorem count_citing (items : List (ItemId × Entry)) (refs : Std.TreeMap ItemId Nat) (id : ItemId) :
    (items.foldl (fun refs p =>
      ((Std.TreeSet.ofList p.2.item.provenance.derivedFrom).toList.filter (· ≠ p.1)).foldl
        (fun refs c => refs.alter c fun n => some (n.getD 0 + 1)) refs) refs)[id]?.getD 0 =
      refs[id]?.getD 0 + items.countP fun p => p.1 ≠ id ∧ id ∈ p.2.item.provenance.derivedFrom := by
  induction items generalizing refs with
  | nil => rfl
  | cons p items ih =>
      rw [List.foldl_cons, ih, count_references, count_cited, List.countP_cons]
      simp only [decide_eq_true_eq]
      omega

/-- The reference count of an id is the number of other live items that cite it. -/
theorem referenceCounts_eq (st : State) (id : ItemId) :
    (referenceCounts st.items)[id]?.getD 0 = (st.citers id).ncard := by
  let citing := (st.items.toList.filter fun p => p.1 ≠ id ∧ id ∈ p.2.item.provenance.derivedFrom).map (·.1)
  have hcount : (referenceCounts st.items)[id]?.getD 0 = citing.length := by
    unfold referenceCounts
    rw [count_citing, List.countP_eq_length_filter, List.length_map]
    simp
  have hnodup : citing.Nodup := List.pairwise_map.mpr (((toList_sorted st.items).filter _).imp fun h => h.ne)
  have hciters : st.citers id = citing.toFinset := by
    ext c
    simp [citing, State.citers, and_left_comm]
  rw [hcount, hciters, Set.ncard_coe_finset, List.toFinset_card_of_nodup hnodup]

theorem citers_congr {st' : State} (h : ∀ id, st'.place id = st.place id) : st'.citers id = st.citers id := by
  have hcites : ∀ (st : State) (c : ItemId), (∃ e, st.items[c]? = some e ∧ id ∈ e.item.provenance.derivedFrom) ↔
      ∃ p, st.place c = some p ∧ id ∈ p.1.provenance.derivedFrom := fun st c => by simp [State.place]
  ext c
  simp only [State.citers, Set.mem_ofPred_eq, hcites, h]

end Semanticore.Context
