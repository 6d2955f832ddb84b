import Semanticore.Context.Session

/-!
# The index as a map from ids to entries
-/

namespace Semanticore.Context

/-! ## Lookups -/

@[simp] theorem getElem?_empty (id : ItemId) : (∅ : Index)[id]? = none := Std.TreeMap.getElem?_emptyc

theorem getElem?_insert (m : Index) (id id' : ItemId) (e : Entry) :
    (m.insert id e)[id']? = if id = id' then some e else m[id']? := by
  simp only [Std.TreeMap.getElem?_insert, compare_eq_iff_eq]

@[simp] theorem getElem?_insert_self (m : Index) (id : ItemId) (e : Entry) : (m.insert id e)[id]? = some e := by
  simp

theorem getElem?_insert_ne (m : Index) {id id' : ItemId} (e : Entry) (h : id ≠ id') :
    (m.insert id e)[id']? = m[id']? := by
  simp [getElem?_insert, h]

theorem getElem?_erase (m : Index) (id id' : ItemId) :
    (m.erase id)[id']? = if id = id' then none else m[id']? := by
  simp only [Std.TreeMap.getElem?_erase, compare_eq_iff_eq]

@[simp] theorem getElem?_erase_self (m : Index) (id : ItemId) : (m.erase id)[id]? = none := by
  simp

theorem mem_toList {m : Index} {id : ItemId} {e : Entry} : (id, e) ∈ m.toList ↔ m[id]? = some e :=
  Std.TreeMap.mem_toList_iff_getElem?_eq_some

theorem toList_sorted (m : Index) : m.toList.Pairwise fun a b => a.1 < b.1 :=
  Std.TreeMap.ordered_keys_toList.imp fun h => compare_lt_iff_lt.mp h

/-! ## The items of a scope -/

namespace State

variable {st : State} {scope : ContextScope} {id : ItemId} {e : Entry}

theorem mem_inScope : (id, e) ∈ st.inScope scope ↔ st.items[id]? = some e ∧ e.scope = scope := by
  simp [inScope]

theorem inScope_sorted (st : State) (scope : ContextScope) :
    (st.inScope scope).Pairwise fun a b => a.1 < b.1 := (toList_sorted st.items).filter _

theorem inScope_nodup (st : State) (scope : ContextScope) : ((st.inScope scope).map (·.1)).Nodup :=
  List.pairwise_map.mpr ((inScope_sorted st scope).imp fun h => h.ne)

theorem scopeOf_eq_some : st.scopeOf id = some scope ↔ ∃ e, st.items[id]? = some e ∧ e.scope = scope := by
  simp [scopeOf]

theorem mem_inScope_ids : id ∈ (st.inScope scope).map (·.1) ↔ st.scopeOf id = some scope := by
  simp only [List.mem_map, Prod.exists, exists_and_right, exists_eq_right, mem_inScope, scopeOf_eq_some]

/-- The item an id stands for, and where it is. -/
def place (st : State) (id : ItemId) : Option (ContextItem × ContextScope) :=
  st.items[id]?.map fun e => (e.item, e.scope)

theorem place_eq_some {item : ContextItem} :
    st.place id = some (item, scope) ↔ ∃ e, st.items[id]? = some e ∧ e.item = item ∧ e.scope = scope := by
  simp [place]

theorem place_of_live (h : st.items[id]? = some e) : st.place id = some (e.item, e.scope) :=
  place_eq_some.mpr ⟨e, h, rfl, rfl⟩

theorem scopeOf_eq_place (st : State) (id : ItemId) : st.scopeOf id = (st.place id).map (·.2) := by
  simp [place, scopeOf, Function.comp_def]

end State

/-! ## Victims -/

/-- Whatever the policy, the eviction order is a rearrangement of the candidates. -/
theorem evictionOrder_perm (cfg : Settings) (now : Instant) (l : List (ItemId × Entry)) :
    (evictionOrder cfg now l).Perm l := by
  unfold evictionOrder
  split <;> exact List.perm_insertionSort _ _

/-- The first `count` candidates in eviction order. -/
def chosenVictims (cfg : Settings) (st : State) (now : Instant) (scope : ContextScope) (count : Nat) : List ItemId :=
  ((evictionOrder cfg now (st.inScope scope)).take count).map (·.1)

section
variable {cfg : Settings} {st : State} {now : Instant} {scope : ContextScope} {count : Nat}

theorem chosenVictims_nodup : (chosenVictims cfg st now scope count).Nodup := by
  have hperm := (evictionOrder_perm cfg now (st.inScope scope)).map Prod.fst
  have hsub := (List.take_sublist count (evictionOrder cfg now (st.inScope scope))).map Prod.fst
  exact (hperm.nodup_iff.mpr (State.inScope_nodup st scope)).sublist hsub

theorem scopeOf_of_mem_chosenVictims {id : ItemId} (h : id ∈ chosenVictims cfg st now scope count) :
    st.scopeOf id = some scope := by
  obtain ⟨p, hp, rfl⟩ := List.mem_map.mp h
  have hmem := (evictionOrder_perm cfg now (st.inScope scope)).mem_iff.mp (List.mem_of_mem_take hp)
  exact State.mem_inScope_ids.mp (List.mem_map_of_mem hmem)

theorem chosenVictims_length :
    (chosenVictims cfg st now scope count).length = min count (st.itemCount scope) := by
  simp [chosenVictims, State.itemCount, (evictionOrder_perm cfg now (st.inScope scope)).length_eq]

end

end Semanticore.Context
