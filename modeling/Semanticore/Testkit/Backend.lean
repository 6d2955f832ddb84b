import Semanticore.Core.NaiveStore
import Semanticore.Testkit.MemStore
import Semanticore.Testkit.Passes
import Mathlib

/-!
# The reference store as a backend

`MemStore` behind the trait. It is a plain set of quads, so it meets the contract.
-/

namespace Semanticore.Testkit
open Semanticore.Core

def MemState.quadCount (st : MemState) : Nat := st.quads.card

/-- `MemStore::named_graphs`: sorted, each graph once. -/
def MemState.namedGraphs (st : MemState) : List NamedNode :=
  ((Check.graphsOf st.quads).image (·.iri)).sort.map NamedNode.mk

/-- `MemStore` and `MemTx`. The hash set yields its quads in some order. -/
noncomputable def memStorage : Storage where
  Store := MemState
  Tx := MemTx
  beginRead st := .ok (beginRead st)
  beginWrite st := .ok (beginWrite st)
  insert _ tx q := tx.insert q
  remove _ tx q := tx.remove q
  contains _ tx q := .ok (tx.contains q)
  quadsForPattern _ tx s p o g := (tx.quadsForPattern s p o g).toList.map .ok
  commit st tx := tx.commit st
  rollback st _ := (.ok (), st)
  quadCount st := .ok st.quadCount
  namedGraphs st := .ok st.namedGraphs
  readCommitted _ := false

theorem mem_namedGraphs {st : MemState} {g : NamedNode} : g ∈ st.namedGraphs ↔ ∃ q ∈ st.quads, q.graph = .named g := by
  simp only [MemState.namedGraphs, List.mem_map, Finset.mem_sort, Finset.mem_image, Check.graphsOf, Finset.mem_biUnion]
  constructor
  · rintro ⟨_, ⟨g', ⟨q, hq, hg⟩, rfl⟩, rfl⟩
    cases hgraph : q.graph with
    | named g'' =>
        rw [hgraph, Finset.mem_singleton] at hg
        exact ⟨q, hq, hg ▸ hgraph⟩
    | default =>
        rw [hgraph] at hg
        exact absurd hg (Finset.notMem_empty _)
  · rintro ⟨q, hq, hgraph⟩
    exact ⟨g.iri, ⟨g, ⟨q, hq, by simp [hgraph]⟩, rfl⟩, rfl⟩

theorem nodup_namedGraphs (st : MemState) : st.namedGraphs.Nodup :=
  (Finset.sort_nodup _ _).map fun a b h => by cases h; rfl

/-- A transaction of a `MemStore` works on a plain set. -/
def memPlainSet : memStorage.PlainSet Quad.Built where
  holds st S := st.quads = S ∧ ∀ q ∈ S, q.Built
  writes st tx S := tx.writable = true ∧ tx.baseVersion = st.version ∧ tx.working = S ∧ ∀ q ∈ S, q.Built
  reads _ tx S := tx.writable = false ∧ tx.working = S
  fits h := h.2 _
  beginRead h := ⟨_, rfl, rfl, h.1⟩
  beginWrite h := ⟨_, rfl, rfl, rfl, h⟩
  insert := by
    rintro st ⟨base, working, writable⟩ S q ⟨hwritable, hbase, hworking, hbuilt⟩ hq
    cases hwritable
    cases hworking
    exact ⟨_, rfl, rfl, hbase, rfl, Finset.forall_mem_insert _ _ _ |>.mpr ⟨hq, hbuilt⟩⟩
  refuse _ hq hunfit := (hunfit hq).elim
  remove := by
    rintro st ⟨base, working, writable⟩ S q ⟨hwritable, hbase, hworking, hbuilt⟩ -
    cases hwritable
    cases hworking
    exact ⟨_, rfl, rfl, hbase, rfl, fun r hr => hbuilt r (Finset.mem_of_mem_erase hr)⟩
  contains := by
    rintro st tx S q h -
    have hworking : tx.working = S := h.elim (·.2.2.1) (·.2)
    rw [← hworking]
    rfl
  quadsForPattern := by
    intro st tx S sub p o g h _
    have hworking : tx.working = S := h.elim (·.2.2.1) (·.2)
    subst hworking
    refine ⟨_, rfl, Finset.nodup_toList _, fun q => ?_⟩
    exact Finset.mem_toList.trans Finset.mem_filter
  commit := by
    rintro st ⟨base, working, writable⟩ S ⟨hwritable, hbase, hworking, hbuilt⟩
    cases hwritable
    cases hbase
    refine ⟨{ quads := working, version := st.version + 1 }, ?_, hworking, hbuilt⟩
    simp [memStorage, MemTx.commit]
  rollback _ := rfl
  readOnly q h := by
    obtain ⟨hwritable, -⟩ := h
    refine ⟨⟨readOnlyError, ?_⟩, readOnlyError, ?_⟩
    · simp [memStorage, MemTx.insert, hwritable]
    · simp [memStorage, MemTx.remove, hwritable]
  commitReader h := by simp [memStorage, MemTx.commit, h.1]
  rollbackReader _ _ := rfl
  snapshot _ _ h := h
  quadCount h := by
    cases h.1
    rfl
  namedGraphs h := by
    cases h.1
    exact ⟨_, rfl, nodup_namedGraphs _, fun g => mem_namedGraphs⟩

/-- The reference store meets the contract, on every input. -/
theorem memStore_meets_contract : Contract memStorage Quad.Built ⟨0, ∅⟩ :=
  contract_of_plainSet memPlainSet ⟨rfl, fun _ hq => absurd hq (Finset.notMem_empty _)⟩ fun _ h => h

/-- So does the naive store that the reasoners of the core crate run over. -/
theorem naiveStore_meets_contract : Contract Naive.memStorage Quad.Built ⟨[]⟩ :=
  contract_of_plainSet (Naive.plainSet Quad.Built fun _ h => h) ⟨.nil, rfl, by simp⟩ fun _ h => h

end Semanticore.Testkit
