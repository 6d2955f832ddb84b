import Semanticore.Testkit.Contract
import Mathlib.Data.String.Basic

/-!
# Backends that pass the contract

A backend that is a plain set of quads passes every check, whatever quads the check is given, as long as the backend can
hold them.
-/

namespace Semanticore.Testkit
open Semanticore.Core Semanticore.Lib Client Check

variable {B : Storage} {Fit : Quad → Prop} {α β : Type}

/-! ## Helpers -/

section
variable {s : B.Store} {Q : α → B.Store → Prop}

theorem assert_passes {p : Bool} (h : p = true) : Succeeds (Check.assert (B := B) p) s fun _ s' => True ∧ s' = s := by
  subst h
  exact .ret ⟨trivial, rfl⟩

theorem assert_ends {p : Bool} (h : p = true) : Succeeds (Check.assert (B := B) p) s fun _ _ => True :=
  (assert_passes h).mono fun _ _ _ => trivial

theorem onlyIf_passes {p : Bool} {a : α} {x : Check B α} (hx : p = true → Succeeds x s Q) (ha : Q a s) :
    Succeeds (onlyIf p a x) s Q := by
  cases p with
  | true => exact hx rfl
  | false => exact .ret ha

theorem onFirst_passes {base : List Quad} {a : α} {f : Quad → Check B α} (hf : ∀ first ∈ base, Succeeds (f first) s Q)
    (ha : Q a s) : Succeeds (onFirst base a f) s Q := by
  cases base with
  | nil => exact .ret ha
  | cons first base => exact hf first List.mem_cons_self

theorem eq_singleton {l : List β} [DecidableEq β] {b : β} (hnodup : l.Nodup) (h : l.toFinset = {b}) : l = [b] :=
  List.perm_singleton.mp (List.perm_of_nodup_nodup_toFinset_eq hnodup (List.nodup_singleton b) (by simp [h]))

theorem toFinset_found {l : List Quad} {S : Finset Quad} {p : Quad → Bool} (h : ∀ q, q ∈ l ↔ q ∈ S ∧ p q = true) :
    l.toFinset = S.filter (p · = true) := by
  ext q
  rw [List.mem_toFinset, h, Finset.mem_filter]

theorem pairwise_sorted (gs : List NamedNode) : (sorted gs).Pairwise fun a b => a.iri ≤ b.iri := by
  refine (List.pairwise_mergeSort (fun a b c hab hbc => ?_) (fun a b => ?_) gs).imp of_decide_eq_true
  · exact decide_eq_true ((of_decide_eq_true hab).trans (of_decide_eq_true hbc))
  · simpa using le_total a.iri b.iri

/-- There is one way to sort two graph names. -/
theorem sorted_eq {gs : List NamedNode} {g₁ g₂ : NamedNode} (hgs : gs.Nodup) (hpair : gs.toFinset = {g₁, g₂})
    (hlt : g₁.iri < g₂.iri) : sorted gs = [g₁, g₂] := by
  have hne : g₁ ≠ g₂ := fun heq => lt_irrefl g₂.iri (heq ▸ hlt)
  have hperm : gs.Perm [g₁, g₂] := List.perm_of_nodup_nodup_toFinset_eq hgs (by simp [hne]) (by simp [hpair])
  have hpairwise : [g₁, g₂].Pairwise fun a b => a.iri ≤ b.iri := by simpa using hlt.le
  refine ((List.mergeSort_perm _ _).trans hperm).eq_of_pairwise ?_ (pairwise_sorted gs) hpairwise
  rintro ⟨a⟩ ⟨b⟩ - - hab hba
  exact congrArg NamedNode.mk (le_antisymm hab hba)

/-- A check that succeeds does not panic. -/
theorem run_of_succeeds {x : Check B Unit} (h : Succeeds x s fun _ _ => True) : (x.run.run s).1 = .ok () := by
  obtain ⟨a, s', hrun, -⟩ := h.returns
  rw [hrun]

end

section
variable (K : B.PlainSet Fit) {s : B.Store} {tx : B.Tx} {S : Finset Quad} {q : Quad} {quads : List Quad}

include K

theorem allQuads_passes (h : K.writes s tx S ∨ K.reads s tx S) : Succeeds (allQuads tx) s fun T s' => T = S ∧ s' = s := by
  refine (quadsForPattern_succeeds K h fun l hl => by cases hl).next fun qs hqs => Succeeds.ret ⟨?_, rfl⟩
  ext q
  rw [List.mem_toFinset, hqs.2 q]
  exact and_iff_left rfl

theorem namedGraphs_passes (h : K.holds s S) : Succeeds (namedGraphs (B := B) (ε := Unit)) s fun gs s' =>
    (gs.Nodup ∧ gs.toFinset = graphsOf S) ∧ s' = s := by
  obtain ⟨gs, hgs, hnodup, hmem⟩ := K.namedGraphs h
  have hgraphs : gs.toFinset = graphsOf S := by
    ext g
    simp only [List.mem_toFinset, hmem, graphsOf, Finset.mem_biUnion]
    refine exists_congr fun q => and_congr_right fun _ => ?_
    cases q.graph <;> simp [eq_comm]
  exact Succeeds.read ((ofExcept_succeeds hgs).mono fun gs' _ h => ⟨h.1 ▸ ⟨hnodup, hgraphs⟩, h.2⟩)

theorem committed_passes (h : K.holds s S) : Succeeds (committed (B := B)) s fun T s' => T = S ∧ s' = s :=
  (beginRead_succeeds K h).next fun _ htx => (allQuads_passes K (.inr htx)).next fun _ hT =>
    (rollback_succeeds (K.rollbackReader s htx)).next fun _ _ => Succeeds.ret ⟨hT, rfl⟩

/-! ## Checks -/

variable (hfresh : K.holds s ∅)

include hfresh

theorem roundTrip_passes (hfit : ∀ q ∈ quads, Fit q) : Succeeds (roundTrip (B := B) quads) s fun _ _ => True := by
  refine (load_succeeds K hfresh hfit).bind fun _ s hs => ?_
  rw [Finset.empty_union] at hs
  refine (beginRead_succeeds K hs).next fun tx htx => ?_
  refine (Succeeds.forM fun q hq => (contains_succeeds K (.inr htx) (hfit q hq)).next fun b hb => ?_).next fun _ _ => ?_
  · exact assert_passes (by simp [hb, hq])
  refine (allQuads_passes K (.inr htx)).next fun T hT => (assert_passes (by simp [hT])).next fun _ _ => ?_
  refine (rollback_succeeds (K.rollbackReader s htx)).next fun _ _ => (quadCount_succeeds K hs).next fun n hn => ?_
  exact assert_ends (by simp [hn])

theorem idempotentInsert_passes (hfit : ∀ q ∈ quads, Fit q) :
    Succeeds (idempotentInsert (B := B) quads) s fun _ _ => True := by
  refine (beginWrite_succeeds K hfresh).next fun tx htx => ?_
  -- `seen` is what the transaction holds
  refine (Succeeds.foldlM (I := fun rest (acc : B.Tx × Finset Quad) => (∀ q ∈ rest, Fit q) ∧ K.writes s acc.1 acc.2 ∧
    acc.2 ∪ rest.toFinset = quads.toFinset) (fun acc q rest hI => ?_) ⟨hfit, htx, Finset.empty_union _⟩).next
    fun acc hacc => ?_
  · obtain ⟨hrest, hwrites, hunion⟩ := hI
    refine (insert_succeeds K hwrites (hrest q List.mem_cons_self)).next fun r hr => ?_
    refine (assert_passes (by simp [hr.1])).next fun _ _ => Succeeds.ret ⟨⟨?_, hr.2, ?_⟩, rfl⟩
    · exact fun q' hq' => hrest q' (List.mem_cons_of_mem _ hq')
    · rw [← hunion, List.toFinset_cons, Finset.insert_union, Finset.union_insert]
  obtain ⟨-, hwrites, hseen⟩ := hacc
  rw [List.toFinset_nil, Finset.union_empty] at hseen
  refine (commit_succeeds K hwrites).bind fun _ s hs => (committed_passes K hs).next fun once honce => ?_
  refine (beginWrite_succeeds K hs).next fun tx htx => ?_
  refine (Succeeds.foldlM (I := fun rest tx => (∀ q ∈ rest, q ∈ quads) ∧ K.writes s tx acc.2) (fun tx q rest hI => ?_)
    ⟨fun q hq => hq, htx⟩).next fun tx htx => ?_
  · obtain ⟨hrest, hwrites⟩ := hI
    have hq := hrest q List.mem_cons_self
    have hmem : q ∈ acc.2 := by rw [hseen]; simpa using hq
    refine (insert_succeeds K hwrites (hfit q hq)).next fun r hr => ?_
    refine (assert_passes (by simp [hr.1, hmem])).next fun _ _ => Succeeds.ret ⟨⟨?_, ?_⟩, rfl⟩
    · exact fun q' hq' => hrest q' (List.mem_cons_of_mem _ hq')
    · rw [← Finset.insert_eq_self.mpr hmem]
      exact hr.2
  refine (commit_succeeds K htx.2).bind fun _ s hs => (committed_passes K hs).next fun T hT => ?_
  refine (assert_passes (by simp [hT, honce])).next fun _ _ => (quadCount_succeeds K hs).next fun n hn => ?_
  exact assert_ends (by simp [hn, honce])

theorem deleteAfterInsert_passes {base : List Quad} {extra : Quad} (hbase : ∀ q ∈ base, Fit q) (hextra : Fit extra) :
    Succeeds (deleteAfterInsert (B := B) base extra) s fun _ _ => True := by
  refine (load_succeeds K hfresh hbase).bind fun _ s hs => (committed_passes K hs).next fun before hbefore => ?_
  rw [Finset.empty_union] at hs hbefore
  subst hbefore
  refine (beginWrite_succeeds K hs).next fun tx htx => (insert_succeeds K htx hextra).next fun r hr => ?_
  refine (assert_passes (by simp [hr.1])).next fun _ _ => (remove_succeeds K hr.2 hextra).next fun r hr => ?_
  refine (assert_passes (by simp [hr.1])).next fun _ _ => (contains_succeeds K (.inl hr.2) hextra).next fun b hb => ?_
  refine (assert_passes (by simp [hb])).next fun _ _ => (commit_succeeds K hr.2).bind fun _ s hs => ?_
  rw [Finset.erase_insert_eq_erase] at hs
  refine (committed_passes K hs).next fun T hT => (assert_passes (by simp [hT])).next fun _ _ => ?_
  refine (load_succeeds K hs hbase).bind fun _ s hs => ?_
  have hrestored : base.toFinset.erase extra ∪ base.toFinset = base.toFinset :=
    Finset.union_eq_right.mpr (Finset.erase_subset ..)
  rw [hrestored] at hs
  refine (committed_passes K hs).next fun T hT => (assert_passes (by simp [hT])).next fun _ _ => ?_
  refine Succeeds.bind (Q := fun _ s' => K.holds s' base.toFinset) (onlyIf_passes (fun habsent => ?_) hs) fun _ s hs => ?_
  · have habsent : extra ∉ base.toFinset := by simpa using habsent
    have hsingle : ∀ q ∈ [extra], Fit q := by simpa using hextra
    refine (load_succeeds K hs hsingle).bind fun _ s hs => ?_
    refine (beginWrite_succeeds K hs).next fun tx htx => (remove_succeeds K htx hextra).next fun r hr => ?_
    refine (assert_passes (by simp [hr.1])).next fun _ _ => (commit_succeeds K hr.2).bind fun _ s hs => ?_
    have hback : (base.toFinset ∪ [extra].toFinset).erase extra = base.toFinset := by
      ext q
      simp only [List.toFinset_cons, List.toFinset_nil, Finset.mem_erase, Finset.mem_union, Finset.mem_insert,
        Finset.notMem_empty, or_false]
      constructor
      · exact fun h => h.2.resolve_right h.1
      · exact fun h => ⟨fun heq => habsent (heq ▸ h), Or.inl h⟩
    rw [hback] at hs
    refine (committed_passes K hs).next fun T hT => ?_
    exact (assert_passes (by simp [hT])).mono fun _ _ h => h.2 ▸ hs
  refine (beginWrite_succeeds K hs).next fun tx htx => ?_
  refine Succeeds.next (P := fun tx => ∃ T, K.writes s tx T) (onlyIf_passes (fun habsent => ?_) ⟨⟨_, htx⟩, rfl⟩)
    fun tx htx => ?_
  · have habsent : extra ∉ base.toFinset := by simpa using habsent
    refine (remove_succeeds K htx hextra).next fun r hr => ?_
    exact (assert_passes (by simp [hr.1, habsent])).next fun _ _ => Succeeds.ret ⟨⟨_, hr.2⟩, rfl⟩
  · obtain ⟨T, htx⟩ := htx
    refine (rollback_succeeds (K.rollback htx)).next fun _ _ => (committed_passes K hs).next fun T hT => ?_
    exact assert_ends (by simp [hT])

theorem pattern_passes {sub : Option NamedOrBlankNode} {p : Option NamedNode} {o : Option Term} {g : Option NamedOrDefault}
    (hfit : ∀ q ∈ quads, Fit q) (ho : BuiltObject o) :
    Succeeds (Check.pattern (B := B) quads sub p o g) s fun _ _ => True := by
  refine (load_succeeds K hfresh hfit).bind fun _ s hs => (beginRead_succeeds K hs).next fun tx htx => ?_
  refine (quadsForPattern_succeeds K (.inr htx) ho).next fun qs hqs => ?_
  refine (assert_passes (by simp [List.toFinset_card_of_nodup hqs.1])).next fun _ _ => ?_
  have hmatch : qs.toFinset = (quads.filter (matchesPattern · sub p o g)).toFinset := by
    ext q
    simp [hqs.2]
  exact assert_ends (by simpa using hmatch)

theorem patternFromMember_passes (hfit : ∀ q ∈ quads, Fit q) (hq : q ∈ quads) (hbuilt : q.Built)
    (mask : Bool × Bool × Bool × Bool) : Succeeds (patternFromMember (B := B) quads q mask) s fun _ _ => True := by
  refine (load_succeeds K hfresh hfit).bind fun _ s hs => (beginRead_succeeds K hs).next fun tx htx => ?_
  have ho : BuiltObject (if mask.2.2.1 then some q.object else none) := by
    intro l hl
    split at hl
    · exact hbuilt l (Option.some.inj hl)
    · cases hl
  refine (quadsForPattern_succeeds K (.inr htx) ho).next fun qs hqs => ?_
  have hfound : q ∈ qs := by
    rw [hqs.2]
    refine ⟨by simpa using hq, ?_⟩
    obtain ⟨m₁, m₂, m₃, m₄⟩ := mask
    cases m₁ <;> cases m₂ <;> cases m₃ <;> cases m₄ <;> simp [matchesPattern]
  exact assert_ends (by simpa using hfound)

theorem rollbackAndIsolation_passes {base writes : List Quad} (hbase : ∀ q ∈ base, Fit q) (hwrites : ∀ q ∈ writes, Fit q) :
    Succeeds (rollbackAndIsolation (B := B) base writes) s fun _ _ => True := by
  refine (load_succeeds K hfresh hbase).bind fun _ s hs => (committed_passes K hs).next fun before hbefore => ?_
  subst hbefore
  refine (beginWrite_succeeds K hs).next fun tx htx => ?_
  refine (Succeeds.foldlM (I := fun rest (acc : B.Tx × Finset Quad) => (∀ q ∈ rest, Fit q) ∧ K.writes s acc.1 acc.2)
    (fun acc q rest hI => ?_) ⟨hwrites, htx⟩).next fun acc hacc => ?_
  · have hq := hI.1 q List.mem_cons_self
    refine (insert_succeeds K hI.2 hq).next fun r hr => (contains_succeeds K (.inl hr.2) hq).next fun b hb => ?_
    refine (assert_passes (by simp [hb])).next fun _ _ => Succeeds.ret ⟨⟨?_, hr.2⟩, rfl⟩
    exact fun q' hq' => hI.1 q' (List.mem_cons_of_mem _ hq')
  refine Succeeds.next (P := fun acc => K.writes s acc.1 acc.2) (onFirst_passes (fun first hfirst => ?_) ⟨hacc.2, rfl⟩)
    fun acc hacc => ?_
  · have hq := hbase first hfirst
    refine (remove_succeeds K hacc.2 hq).next fun r hr => (contains_succeeds K (.inl hr.2) hq).next fun b hb => ?_
    exact (assert_passes (by simp [hb])).next fun _ _ => Succeeds.ret ⟨hr.2, rfl⟩
  refine (allQuads_passes K (.inl hacc)).next fun T hT => (assert_passes (by simp [hT])).next fun _ _ => ?_
  refine (committed_passes K hs).next fun T hT => (assert_passes (by simp [hT])).next fun _ _ => ?_
  refine (rollback_succeeds (K.rollback hacc)).next fun _ _ => (committed_passes K hs).next fun T hT => ?_
  exact assert_ends (by simp [hT])

theorem dropDiscardsWrites_passes {base writes : List Quad} (hbase : ∀ q ∈ base, Fit q) (hwrites : ∀ q ∈ writes, Fit q) :
    Succeeds (dropDiscardsWrites (B := B) base writes) s fun _ _ => True := by
  refine (load_succeeds K hfresh hbase).bind fun _ s hs => (committed_passes K hs).next fun before hbefore => ?_
  refine (beginWrite_succeeds K hs).next fun tx htx => (insertEach_succeeds K htx hwrites).next fun tx htx => ?_
  refine (removeEach_succeeds K htx hbase).next fun _ _ => (committed_passes K hs).next fun T hT => ?_
  refine (assert_passes (by simp [hT, hbefore])).next fun _ _ => (quadCount_succeeds K hs).next fun n hn => ?_
  exact assert_ends (by simp [hn, hbefore])

omit hfresh in
/-- A writing call in a transaction that reads is an error. -/
theorem refused_passes {s : B.Store} {tx : B.Tx} {S : Finset Quad} (h : K.reads s tx S) (q : Quad) :
    Succeeds (tryInsert tx q) s (fun r s' => (isErr r.1 = true ∧ r.2 = tx) ∧ s' = s) ∧
      Succeeds (tryRemove tx q) s (fun r s' => (isErr r.1 = true ∧ r.2 = tx) ∧ s' = s) := by
  obtain ⟨⟨e, hinsert⟩, e', hremove⟩ := K.readOnly q h
  refine ⟨Succeeds.read (Succeeds.ret ?_), Succeeds.read (Succeeds.ret ?_)⟩
  · rw [hinsert]
    exact ⟨⟨rfl, rfl⟩, rfl⟩
  · rw [hremove]
    exact ⟨⟨rfl, rfl⟩, rfl⟩

theorem readOnlyRejectsWrites_passes {base : List Quad} (hbase : ∀ q ∈ base, Fit q) (hq : Fit q) :
    Succeeds (readOnlyRejectsWrites (B := B) base q) s fun _ _ => True := by
  refine (load_succeeds K hfresh hbase).bind fun _ s hs => (committed_passes K hs).next fun before hbefore => ?_
  subst hbefore
  refine (beginRead_succeeds K hs).next fun tx htx => ?_
  refine (refused_passes K htx q).1.next fun r hr => (assert_passes hr.1).next fun _ _ => ?_
  obtain ⟨r, tx'⟩ := r
  obtain rfl : tx' = tx := hr.2
  refine (refused_passes K htx q).2.next fun r hr => (assert_passes hr.1).next fun _ _ => ?_
  obtain ⟨r, tx'⟩ := r
  obtain rfl : tx' = _ := hr.2
  refine (contains_succeeds K (.inr htx) hq).next fun b hb => (assert_passes (by simp [hb])).next fun _ _ => ?_
  refine (allQuads_passes K (.inr htx)).next fun T hT => (assert_passes (by simp [hT])).next fun _ _ => ?_
  refine (commitReader_succeeds (K.commitReader htx)).next fun _ _ => (committed_passes K hs).next fun T hT => ?_
  refine (assert_passes (by simp [hT])).next fun _ _ => (beginRead_succeeds K hs).next fun tx htx => ?_
  refine Succeeds.next (P := fun tx => K.reads s tx _) (onFirst_passes (fun first _ => ?_) ⟨htx, rfl⟩) fun tx htx => ?_
  · refine (refused_passes K htx first).2.next fun r hr => (assert_passes hr.1).next fun _ _ => Succeeds.ret ⟨?_, rfl⟩
    rw [hr.2]
    exact htx
  refine (rollback_succeeds (K.rollbackReader s htx)).next fun _ _ => (committed_passes K hs).next fun T hT => ?_
  exact assert_ends (by simp [hT])

theorem namedGraphsListed_passes (hfit : ∀ q ∈ quads, Fit q) :
    Succeeds (namedGraphsListed (B := B) quads) s fun _ _ => True := by
  refine (load_succeeds K hfresh hfit).bind fun _ s hs => (namedGraphs_passes K hs).next fun gs hgs => ?_
  rw [Finset.empty_union] at hgs
  refine (assert_passes (by simp [List.toFinset_card_of_nodup hgs.1])).next fun _ _ => ?_
  exact assert_ends (by simp [hgs.2])

theorem namedGraphsTrackRemovals_passes (hfit : ∀ q ∈ quads, Fit q) (remove : List Bool) :
    Succeeds (namedGraphsTrackRemovals (B := B) quads remove) s fun _ _ => True := by
  have hmarked : ∀ q ∈ marked quads remove, Fit q := by
    intro q hq
    obtain ⟨p, hp, rfl⟩ := List.mem_map.mp hq
    exact hfit _ (List.fst_mem_of_mem_zipIdx (List.mem_of_mem_filter hp))
  refine (load_succeeds K hfresh hfit).bind fun _ s hs => (unload_succeeds K hs hmarked).bind fun _ s hs => ?_
  refine (committed_passes K hs).next fun remaining hremaining => (namedGraphs_passes K hs).next fun gs hgs => ?_
  refine (assert_passes (by simp [hgs.1.dedup])).next fun _ _ => ?_
  refine (assert_passes (by simp [hgs.2, hremaining])).next fun _ _ => (quadCount_succeeds K hs).next fun n hn => ?_
  exact assert_ends (by simp [hn, hremaining])

theorem snapshotReads_passes {base writes : List Quad} (hbase : ∀ q ∈ base, Fit q) (hwrites : ∀ q ∈ writes, Fit q) :
    Succeeds (snapshotReads (B := B) base writes) s fun _ _ => True := by
  refine (load_succeeds K hfresh hbase).bind fun _ s hs => (committed_passes K hs).next fun before hbefore => ?_
  subst hbefore
  rw [Finset.empty_union] at hs
  refine Succeeds.read ((beginRead_succeeds K hs).next fun reader hreader => ?_)
  refine (allQuads_passes K (.inr hreader)).next fun T hT => (assert_passes (by simp [hT])).next fun _ _ => ?_
  refine (beginWrite_succeeds K hs).next fun tx htx => (insertEach_succeeds K htx hwrites).next fun tx htx => ?_
  refine Succeeds.next (P := fun tx => K.writes s tx ((base.toFinset ∪ writes.toFinset) \ base.head?.toFinset)) ?_
    fun tx htx => (commit_succeeds K htx).bind fun _ s' hs' => ?_
  · cases base with
    | nil => exact Succeeds.ret ⟨by simpa using htx, rfl⟩
    | cons first base =>
        refine (remove_succeeds K htx (hbase first List.mem_cons_self)).next fun r hr => Succeeds.ret ⟨?_, rfl⟩
        simpa [Finset.sdiff_singleton_eq_erase] using hr.2
  refine (committed_passes K hs').next fun after hafter => ?_
  refine Succeeds.next (P := fun _ => True) (onlyIf_passes (fun hsnapshot => ?_) ⟨trivial, rfl⟩) fun _ _ => ?_
  · have hreader := K.snapshot s' (by simpa using hsnapshot) hreader
    refine (allQuads_passes K (.inr hreader)).next fun T hT => (assert_passes (by simp [hT])).next fun _ _ => ?_
    refine Succeeds.forM fun q hq => (contains_succeeds K (.inr hreader) (hwrites q hq)).next fun b hb => ?_
    exact assert_passes (by simp [hb])
  refine (rollback_succeeds (K.rollbackReader s' hreader)).next fun _ _ => ?_
  exact assert_ends (by simp [hafter])

theorem emptyStoreIsEmpty_passes : Succeeds (emptyStoreIsEmpty (B := B)) s fun _ _ => True := by
  refine (quadCount_succeeds K hfresh).next fun n hn => (assert_passes (by simp [hn])).next fun _ _ => ?_
  refine (namedGraphs_passes K hfresh).next fun gs hgs => ?_
  have hnone : gs = [] := by
    rw [← List.toFinset_eq_empty_iff, hgs.2]
    rfl
  refine (assert_passes (by simp [hnone])).next fun _ _ => (committed_passes K hfresh).next fun T hT => ?_
  exact assert_ends (by simp [hT])

theorem graphsAreSeparate_passes (hd : Fit (inGraph .default)) (h₁ : Fit (inGraph (.named (iri "g1"))))
    (h₂ : Fit (inGraph (.named (iri "g2")))) : Succeeds (graphsAreSeparate (B := B)) s fun _ _ => True := by
  have hfit : ∀ q ∈ [inGraph .default, inGraph (.named (iri "g1")), inGraph (.named (iri "g2"))], Fit q := by
    simp [hd, h₁, h₂]
  have hnone : BuiltObject none := fun l hl => by cases hl
  have hobject : BuiltObject (some (inGraph .default).object) := fun l hl => by cases hl
  refine (load_succeeds K hfresh hfit).bind fun _ s hs => ?_
  rw [Finset.empty_union] at hs
  refine (quadCount_succeeds K hs).next fun n hn => (assert_passes (by rw [hn]; decide)).next fun _ _ => ?_
  refine (beginRead_succeeds K hs).next fun tx htx => ?_
  -- one quad in each graph, and none in a graph without quads
  refine (quadsForPattern_succeeds K (.inr htx) hnone).next fun qs hqs => ?_
  have honly : qs = [inGraph .default] := eq_singleton hqs.1 ((toFinset_found hqs.2).trans (by decide))
  refine (assert_passes (decide_eq_true honly)).next fun _ _ => ?_
  refine (quadsForPattern_succeeds K (.inr htx) hnone).next fun qs hqs => ?_
  have honly : qs = [inGraph (.named (iri "g1"))] :=
    eq_singleton hqs.1 ((toFinset_found hqs.2).trans (by decide))
  refine (assert_passes (decide_eq_true honly)).next fun _ _ => ?_
  refine (quadsForPattern_succeeds K (.inr htx) hnone).next fun qs hqs => ?_
  have hempty : qs = [] := (List.toFinset_eq_empty_iff qs).mp ((toFinset_found hqs.2).trans (by decide))
  refine (assert_passes (decide_eq_true hempty)).next fun _ _ => ?_
  refine (quadsForPattern_succeeds K (.inr htx) hobject).next fun qs hqs => (assert_passes ?_).next fun _ _ => ?_
  · rw [toFinset_found hqs.2]
    decide
  refine (rollback_succeeds (K.rollbackReader s htx)).next fun _ _ => (namedGraphs_passes K hs).next fun gs hgs => ?_
  refine (assert_passes (decide_eq_true (sorted_eq hgs.1 (hgs.2.trans (by decide)) (by decide)))).next fun _ _ => ?_
  refine (unload_succeeds K hs (by simp [h₁])).bind fun _ s hs => ?_
  refine (committed_passes K hs).next fun T hT => (assert_passes (by rw [hT]; decide)).next fun _ _ => ?_
  refine (namedGraphs_passes K hs).next fun gs hgs => assert_ends (decide_eq_true ?_)
  exact eq_singleton hgs.1 (hgs.2.trans (by decide))

theorem writesAfterRollback_passes (ha : Fit (quadOf "a")) (hb : Fit (quadOf "b")) (hc : Fit (quadOf "c")) :
    Succeeds (writesAfterRollback (B := B)) s fun _ _ => True := by
  refine (beginWrite_succeeds K hfresh).next fun tx htx => (insert_succeeds K htx ha).next fun r hr => ?_
  refine (rollback_succeeds (K.rollback hr.2)).next fun _ _ => (beginWrite_succeeds K hfresh).next fun tx htx => ?_
  refine (insert_succeeds K htx hb).next fun _ _ => (beginWrite_succeeds K hfresh).next fun tx htx => ?_
  refine (insert_succeeds K htx hc).next fun r hr => (assert_passes (by simp [hr.1])).next fun _ _ => ?_
  refine (commit_succeeds K hr.2).bind fun _ s hs => (committed_passes K hs).next fun T hT => ?_
  exact assert_ends (by simp [hT])

end

/-! ## The contract -/

/-- Every check of the suite but `shareable_across_threads`, which starts threads, passes on a fresh store, whatever quads
it is given among those the backend can hold. -/
structure Contract (B : Storage) (Fit : Quad → Prop) (fresh : B.Store) : Prop where
  roundTrip : ∀ quads, (∀ q ∈ quads, Fit q) → ((roundTrip (B := B) quads).run.run fresh).1 = .ok ()
  idempotentInsert : ∀ quads, (∀ q ∈ quads, Fit q) → ((idempotentInsert (B := B) quads).run.run fresh).1 = .ok ()
  deleteAfterInsert : ∀ base extra, (∀ q ∈ base, Fit q) → Fit extra →
    ((deleteAfterInsert (B := B) base extra).run.run fresh).1 = .ok ()
  pattern : ∀ quads s p o g, (∀ q ∈ quads, Fit q) → BuiltObject o →
    ((Check.pattern (B := B) quads s p o g).run.run fresh).1 = .ok ()
  patternFromMember : ∀ quads q mask, (∀ q ∈ quads, Fit q) → q ∈ quads →
    ((patternFromMember (B := B) quads q mask).run.run fresh).1 = .ok ()
  rollbackAndIsolation : ∀ base writes, (∀ q ∈ base, Fit q) → (∀ q ∈ writes, Fit q) →
    ((rollbackAndIsolation (B := B) base writes).run.run fresh).1 = .ok ()
  dropDiscardsWrites : ∀ base writes, (∀ q ∈ base, Fit q) → (∀ q ∈ writes, Fit q) →
    ((dropDiscardsWrites (B := B) base writes).run.run fresh).1 = .ok ()
  readOnlyRejectsWrites : ∀ base q, (∀ q ∈ base, Fit q) → Fit q →
    ((readOnlyRejectsWrites (B := B) base q).run.run fresh).1 = .ok ()
  namedGraphs : ∀ quads, (∀ q ∈ quads, Fit q) → ((namedGraphsListed (B := B) quads).run.run fresh).1 = .ok ()
  namedGraphsTrackRemovals : ∀ quads remove, (∀ q ∈ quads, Fit q) →
    ((namedGraphsTrackRemovals (B := B) quads remove).run.run fresh).1 = .ok ()
  snapshotReads : ∀ base writes, (∀ q ∈ base, Fit q) → (∀ q ∈ writes, Fit q) →
    ((snapshotReads (B := B) base writes).run.run fresh).1 = .ok ()
  emptyStoreIsEmpty : ((emptyStoreIsEmpty (B := B)).run.run fresh).1 = .ok ()
  graphsAreSeparate : Fit (inGraph .default) → Fit (inGraph (.named (iri "g1"))) → Fit (inGraph (.named (iri "g2"))) →
    ((graphsAreSeparate (B := B)).run.run fresh).1 = .ok ()
  writesAfterRollback : Fit (quadOf "a") → Fit (quadOf "b") → Fit (quadOf "c") →
    ((writesAfterRollback (B := B)).run.run fresh).1 = .ok ()

/-- A backend that is a plain set of quads meets the contract. -/
theorem contract_of_plainSet (K : B.PlainSet Fit) {fresh : B.Store} (hfresh : K.holds fresh ∅)
    (hbuilt : ∀ q, Fit q → q.Built) : Contract B Fit fresh where
  roundTrip _ hfit := run_of_succeeds (roundTrip_passes K hfresh hfit)
  idempotentInsert _ hfit := run_of_succeeds (idempotentInsert_passes K hfresh hfit)
  deleteAfterInsert _ _ hbase hextra := run_of_succeeds (deleteAfterInsert_passes K hfresh hbase hextra)
  pattern _ _ _ _ _ hfit ho := run_of_succeeds (pattern_passes K hfresh hfit ho)
  patternFromMember _ q mask hfit hq :=
    run_of_succeeds (patternFromMember_passes K hfresh hfit hq (hbuilt q (hfit q hq)) mask)
  rollbackAndIsolation _ _ hbase hwrites := run_of_succeeds (rollbackAndIsolation_passes K hfresh hbase hwrites)
  dropDiscardsWrites _ _ hbase hwrites := run_of_succeeds (dropDiscardsWrites_passes K hfresh hbase hwrites)
  readOnlyRejectsWrites _ _ hbase hq := run_of_succeeds (readOnlyRejectsWrites_passes K hfresh hbase hq)
  namedGraphs _ hfit := run_of_succeeds (namedGraphsListed_passes K hfresh hfit)
  namedGraphsTrackRemovals _ remove hfit := run_of_succeeds (namedGraphsTrackRemovals_passes K hfresh hfit remove)
  snapshotReads _ _ hbase hwrites := run_of_succeeds (snapshotReads_passes K hfresh hbase hwrites)
  emptyStoreIsEmpty := run_of_succeeds (emptyStoreIsEmpty_passes K hfresh)
  graphsAreSeparate hd h₁ h₂ := run_of_succeeds (graphsAreSeparate_passes K hfresh hd h₁ h₂)
  writesAfterRollback ha hb hc := run_of_succeeds (writesAfterRollback_passes K hfresh ha hb hc)

end Semanticore.Testkit
