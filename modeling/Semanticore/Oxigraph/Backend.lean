import Semanticore.Oxigraph.PlainSet
import Semanticore.Testkit.Passes

/-!
# The adapter as a backend

The writable kinds of `OxigraphStore` behind the trait, with `quad_count` and `named_graphs`. To one writer at a time the
adapter is a plain set of the quads it accepts, so it meets the contract on these.
-/

namespace Semanticore.Oxigraph
open Semanticore Semanticore.Core Semanticore.Lib

/-! ## Counting and listing graphs -/

/-- The graph names that Oxigraph lists. It keeps a name after the last quad of the graph is removed. -/
structure GraphNames (H : Backend) where
  remember : List Ox.NamedOrBlankNode → Finset (EncodedQuad H.crates) → List Ox.NamedOrBlankNode
  nodup : ∀ {known} K, known.Nodup → (remember known K).Nodup
  keeps : ∀ {known g} K, g ∈ known → g ∈ remember known K
  covers : ∀ {K k n} known, k ∈ K → k.graphName = .namedNode n → .namedNode n ∈ remember known K
  named : ∀ {known K b}, .blankNode b ∈ remember known K → .blankNode b ∈ known ∨ ∃ k ∈ K, k.graphName = .blankNode b

variable {H : Backend}

/-- `quad_count`: a full scan. -/
def OxigraphStore.quadCount (st : OxigraphStore H) : Nat := st.inner.card

/-- `named_graphs`, over the graph names that Oxigraph lists: those that hold a quad. -/
def OxigraphStore.namedGraphs (st : OxigraphStore H) : List Ox.NamedOrBlankNode → Except StorageError (List NamedNode)
  | [] => .ok []
  | .blankNode b :: _ => .error (Unrepresentable.blankGraphName b.id).storageError
  | .namedNode n :: known => match (H.scan st.inner none none none (some (.namedNode n))).head? with
      | some _ => do return namedFromOx n :: (← st.namedGraphs known)
      | none => st.namedGraphs known

/-- The graph has a quad. -/
def Inhabited (K : Finset (EncodedQuad H.crates)) (n : Ox.NamedNode) : Prop := ∃ k ∈ K, k.graphName = .namedNode n

theorem scan_head (st : OxigraphStore H) (n : Ox.NamedNode) :
    (H.scan st.inner none none none (some (.namedNode n))).head? = none ↔ ¬ Inhabited st.inner n := by
  rw [List.head?_eq_none_iff, List.eq_nil_iff_forall_not_mem]
  simp only [H.mem_scan, EncodedQuad.matches, Inhabited, not_exists, not_and]
  refine forall_congr' fun k => forall_congr' fun _ => not_congr ?_
  simp [eq_comm]

theorem namedGraphs_spec (st : OxigraphStore H) {known : List Ox.NamedOrBlankNode} (hnodup : known.Nodup)
    (hnamed : ∀ b, .blankNode b ∉ known) : ∃ gs : List NamedNode, st.namedGraphs known = .ok gs ∧ gs.Nodup ∧
      ∀ g, g ∈ gs ↔ .namedNode ⟨g.iri⟩ ∈ known ∧ Inhabited st.inner ⟨g.iri⟩ := by
  induction known with
  | nil => exact ⟨[], rfl, .nil, by simp⟩
  | cons n known ih =>
      obtain ⟨hnot, hrest⟩ := List.nodup_cons.mp hnodup
      obtain ⟨gs, hgs, hgsnodup, hmem⟩ := ih hrest fun b hb => hnamed b (List.mem_cons_of_mem _ hb)
      cases n with
      | blankNode b => exact (hnamed b List.mem_cons_self).elim
      | namedNode n =>
          unfold OxigraphStore.namedGraphs
          split
          · rename_i hhead
            have hinhabited : Inhabited st.inner n := by
              by_contra hempty
              rw [(scan_head st n).mpr hempty] at hhead
              cases hhead
            refine ⟨namedFromOx n :: gs, by rw [hgs]; rfl, List.nodup_cons.mpr ⟨fun hin => ?_, hgsnodup⟩, fun g => ?_⟩
            · exact hnot ((hmem _).mp hin).1
            · rw [List.mem_cons, hmem, List.mem_cons]
              constructor
              · rintro (rfl | ⟨hin, hg⟩)
                · exact ⟨Or.inl rfl, hinhabited⟩
                · exact ⟨Or.inr hin, hg⟩
              · rintro ⟨heq | hin, hg⟩
                · cases heq
                  exact Or.inl rfl
                · exact Or.inr ⟨hin, hg⟩
          · rename_i hhead
            have hempty := (scan_head st n).mp hhead
            refine ⟨gs, hgs, hgsnodup, fun g => ?_⟩
            rw [hmem, List.mem_cons]
            constructor
            · exact fun h => ⟨Or.inr h.1, h.2⟩
            · rintro ⟨heq | hin, hg⟩
              · cases heq
                exact (hempty hg).elim
              · exact ⟨hin, hg⟩

/-- The name of a stored graph. -/
def Ox.GraphName.name : Ox.GraphName → Option Ox.NamedOrBlankNode
  | .namedNode n => some (.namedNode n)
  | .blankNode b => some (.blankNode b)
  | .defaultGraph => none

/-- Every name is kept for ever. -/
def Backend.everNamed (H : Backend) : GraphNames H where
  remember known K := (known ++ (H.scan K none none none none).filterMap (·.graphName.name)).dedup
  nodup _ _ := List.nodup_dedup _
  keeps _ h := List.mem_dedup.mpr (List.mem_append_left _ h)
  covers _ hk hn := by
    refine List.mem_dedup.mpr (List.mem_append_right _ (List.mem_filterMap.mpr ⟨_, ?_, by rw [hn]; rfl⟩))
    exact (H.mem_scan _ _ _ _ _ _).mpr ⟨hk, rfl⟩
  named h := by
    rcases List.mem_append.mp (List.mem_dedup.mp h) with h | h
    · exact Or.inl h
    · obtain ⟨k, hk, hname⟩ := List.mem_filterMap.mp h
      refine Or.inr ⟨k, ((H.mem_scan _ _ _ _ _ _).mp hk).1, ?_⟩
      cases hgraph : k.graphName <;> rw [hgraph] at hname <;> cases hname
      rfl

/-! ## The backend -/

/-- A store of the adapter, and the graph names that Oxigraph lists for it. -/
structure NamedStore (H : Backend) where
  store : OxigraphStore H
  known : List Ox.NamedOrBlankNode

/-- The names that Oxigraph lists after a transaction. -/
def OxigraphTransaction.remember (N : GraphNames H) (known : List Ox.NamedOrBlankNode) :
    OxigraphTransaction H → List Ox.NamedOrBlankNode
  | .write W => N.remember known W
  | .snapshot _ => known
  | .latest => known

/-- `OxigraphStore` and `OxigraphTransaction`. -/
def oxigraphStorage (H : Backend) (N : GraphNames H) : Storage where
  Store := NamedStore H
  Tx := OxigraphTransaction H
  beginRead s := .ok s.store.beginRead
  beginWrite s := s.store.beginWrite
  insert s tx q := tx.insert s.store q
  remove s tx q := tx.remove s.store q
  contains s tx q := tx.contains s.store q
  quadsForPattern s tx sub p o g := tx.quadsForPattern s.store sub p o g
  commit s tx := ((tx.commit s.store).1, ⟨(tx.commit s.store).2, tx.remember N s.known⟩)
  rollback s _ := (.ok (), s)
  quadCount s := .ok s.store.quadCount
  namedGraphs s := s.store.namedGraphs s.known
  readCommitted s := s.store.kind = .inMemory

/-- A new store: `OxigraphStore::in_memory`, or `OxigraphStore::open` on an empty directory. -/
def freshStore (H : Backend) (kind : Kind) : NamedStore H := ⟨⟨∅, kind⟩, []⟩

/-- The adapter accepts the quad. -/
def Accepted (H : Backend) (q : Quad) : Prop := q.Built ∧ ¬ Unfit H.crates q

/-- The store can be written to, and the names listed are those of graphs that had quads. -/
structure Listed (s : NamedStore H) : Prop where
  kind : s.store.kind ≠ .onDiskReadOnly
  nodup : s.known.Nodup
  named : ∀ b, .blankNode b ∉ s.known
  covers : ∀ k ∈ s.store.inner, ∀ n, k.graphName = .namedNode n → .namedNode n ∈ s.known

variable {N : GraphNames H} {s : NamedStore H} {S : Finset Quad} {q : Quad}

/-- Graph names of quads that were accepted are IRIs. -/
theorem graph_of_represents {K : Finset (EncodedQuad H.crates)} (h : Represents (quadCode H.crates) K S)
    {k : EncodedQuad H.crates} (hk : k ∈ K) : ∃ q ∈ S, (quadCode H.crates).encode q = some k ∧
      match q.graph with
      | .named g => k.graphName = .namedNode ⟨g.iri⟩
      | .default => k.graphName = .defaultGraph := by
  obtain ⟨q, hq, hcode⟩ := h.named k hk
  refine ⟨q, hq, hcode, ?_⟩
  obtain ⟨o, ho, rfl⟩ := quadCode_some hcode
  obtain ⟨-, -, -, hgraph⟩ := quadToOx_ok.mp ho
  cases hg : q.graph with
  | named g =>
      rw [hg] at hgraph
      obtain ⟨n, hn, hgraph⟩ := map_eq_ok.mp hgraph
      obtain ⟨-, rfl⟩ := namedToOx_ok.mp hn
      exact hgraph.symm
  | default =>
      rw [hg] at hgraph
      exact (Except.ok.inj hgraph).symm

theorem inhabited_iff {K : Finset (EncodedQuad H.crates)} (h : Represents (quadCode H.crates) K S) (g : NamedNode) :
    Inhabited K ⟨g.iri⟩ ↔ ∃ q ∈ S, q.graph = .named g := by
  constructor
  · rintro ⟨k, hk, hgraph⟩
    obtain ⟨q, hq, -, hmatch⟩ := graph_of_represents h hk
    refine ⟨q, hq, ?_⟩
    cases hg : q.graph with
    | named g' =>
        rw [hg] at hmatch
        have hiri := hmatch.symm.trans hgraph
        cases g
        cases g'
        cases hiri
        rfl
    | default =>
        rw [hg] at hmatch
        cases hmatch.symm.trans hgraph
  · rintro ⟨q, hq, hg⟩
    obtain ⟨k, hk, hcode⟩ := h.stored q hq
    obtain ⟨q', hq', hcode', hmatch⟩ := graph_of_represents h hk
    have heq : q' = q := (quadCode H.crates).injective (h.valid q' hq') (h.valid q hq) hcode' hcode
    rw [heq, hg] at hmatch
    exact ⟨k, hk, hmatch⟩

theorem Listed.commit (h : Listed s) {W : Finset (EncodedQuad H.crates)} (hW : Keeps W S) :
    Listed (⟨⟨W, s.store.kind⟩, N.remember s.known W⟩ : NamedStore H) where
  kind := h.kind
  nodup := N.nodup W h.nodup
  named b hb := by
    rcases N.named hb with hb | ⟨k, hk, hgraph⟩
    · exact h.named b hb
    · obtain ⟨q, -, -, hmatch⟩ := graph_of_represents hW.represents hk
      rw [hgraph] at hmatch
      cases hg : q.graph <;> rw [hg] at hmatch <;> cases hmatch
  covers k hk n hn := N.covers s.known hk hn

theorem accepted_code (h : Accepted H q) : ∃ o, quadToOx H.crates q = .ok o := by
  cases ho : quadToOx H.crates q with
  | ok o => exact ⟨o, rfl⟩
  | error u => exact (h.2 (unfit_of_refused ho)).elim

/-- The set that a read-only transaction reads. -/
def ReadsSet (s : NamedStore H) (tx : OxigraphTransaction H) (S : Finset Quad) : Prop :=
  match tx with
  | .write _ => False
  | .snapshot K => Represents (quadCode H.crates) K S
  | .latest => s.store.kind = .inMemory ∧ Represents (quadCode H.crates) s.store.inner S

theorem represents_view {tx : OxigraphTransaction H}
    (h : (Listed s ∧ ∃ W, tx = .write W ∧ Keeps W S) ∨ ReadsSet s tx S) :
    Represents (quadCode H.crates) (tx.view s.store) S := by
  rcases h with ⟨-, W, rfl, hW⟩ | h
  · exact hW.represents
  · cases tx with
    | write W => exact h.elim
    | snapshot K => exact h
    | latest => exact h.2

/-- To one writer at a time the adapter is a plain set of the quads it accepts. -/
def oxigraphPlainSet (H : Backend) (N : GraphNames H) : (oxigraphStorage H N).PlainSet (Accepted H) where
  holds s S := Listed s ∧ Keeps s.store.inner S
  writes s tx S := Listed s ∧ ∃ W, tx = .write W ∧ Keeps W S
  reads s tx S := ReadsSet s tx S
  fits := by
    rintro s S q ⟨-, hK⟩ hq
    exact ⟨hK.represents.valid q hq, fit_of_represents hK.represents q hq⟩
  beginRead := by
    intro s S h
    refine ⟨_, rfl, ?_⟩
    cases hkind : s.store.kind with
    | inMemory =>
        rw [OxigraphStore.beginRead, hkind]
        exact ⟨hkind, h.2.represents⟩
    | onDisk =>
        rw [OxigraphStore.beginRead, hkind]
        exact h.2.represents
    | onDiskReadOnly => exact (h.1.kind hkind).elim
  beginWrite := by
    intro s S h
    exact ⟨.write s.store.inner, if_neg h.1.kind, h.1, _, rfl, h.2⟩
  insert := by
    rintro s tx S q ⟨hlisted, W, rfl, hW⟩ hq
    obtain ⟨o, ho⟩ := accepted_code hq
    have hcode := quadCode_ok ho
    refine ⟨.write (Insert.insert (o.encode H.crates) W), ?_, hlisted, _, rfl, hW.written.put hq.1 hcode,
      hW.represents.insert hq.1 hcode⟩
    refine (write_insert ho).trans ?_
    simp only [hW.represents.mem_iff hq.1 hcode]
    rfl
  refuse := by
    rintro s tx S q ⟨-, W, rfl, -⟩ hbuilt hrefused
    obtain ⟨u, hu⟩ := refused_iff.mpr (not_not.mp fun hfit => hrefused ⟨hbuilt, hfit⟩)
    refine ⟨u.storageError, ?_⟩
    simp only [oxigraphStorage, OxigraphTransaction.insert, OxigraphTransaction.writer, hu]
  remove := by
    rintro s tx S q ⟨hlisted, W, rfl, hW⟩ hq
    obtain ⟨o, ho⟩ := accepted_code hq
    have hcode := quadCode_ok ho
    refine ⟨.write (W.erase (o.encode H.crates)), ?_, hlisted, _, rfl, hW.written.delete _, hW.represents.erase hq.1 hcode⟩
    refine (write_remove ho).trans ?_
    simp only [hW.represents.mem_iff hq.1 hcode]
    rfl
  contains h hq := contains_accords (represents_view h) hq.1
  quadsForPattern := by
    intro s tx S sub p o g h ho
    obtain ⟨qs, hqs, hnodup, hset⟩ := quadsForPattern_lists (represents_view h) (s := sub) (p := p) (g := g) ho
    exact ⟨qs, hqs, hnodup, fun q => by rw [← List.mem_toFinset, hset, Finset.mem_filter]⟩
  commit := by
    rintro s tx S ⟨hlisted, W, rfl, hW⟩
    exact ⟨_, rfl, hlisted.commit hW, hW⟩
  rollback _ := rfl
  readOnly := by
    intro s tx S q h
    have hwriter : tx.writer = .error AdapterError.readOnlyTransaction.storageError := by
      cases tx with
      | write W => exact h.elim
      | snapshot K => rfl
      | latest => rfl
    constructor
    · exact ⟨_, by simp only [oxigraphStorage, OxigraphTransaction.insert, hwriter]; rfl⟩
    · exact ⟨_, by simp only [oxigraphStorage, OxigraphTransaction.remove, hwriter]; rfl⟩
  commitReader := by
    intro s tx S h
    cases tx with
    | write W => exact h.elim
    | snapshot K => rfl
    | latest => rfl
  rollbackReader _ _ := rfl
  snapshot := by
    intro s tx S s' hsnapshot h
    cases tx with
    | write W => exact h.elim
    | snapshot K => exact h
    | latest => exact absurd h.1 (of_decide_eq_false hsnapshot)
  quadCount := by
    intro s S h
    obtain ⟨qs, hnodup, hset, hall⟩ := h.2.represents.listing (fun k => Finset.mem_toList) (Finset.nodup_toList _)
    refine congrArg Except.ok ?_
    rw [← hset, List.toFinset_card_of_nodup hnodup, hall.length_eq, Finset.length_toList]
    rfl
  namedGraphs := by
    intro s S h
    obtain ⟨gs, hgs, hnodup, hmem⟩ := namedGraphs_spec s.store h.1.nodup h.1.named
    refine ⟨gs, hgs, hnodup, fun g => (hmem g).trans ?_⟩
    rw [inhabited_iff h.2.represents]
    refine and_iff_right_of_imp fun hg => ?_
    obtain ⟨k, hk, hgraph⟩ := (inhabited_iff h.2.represents g).mpr hg
    exact h.1.covers k hk _ hgraph

theorem holds_fresh (H : Backend) (N : GraphNames H) {kind : Kind} (hkind : kind ≠ .onDiskReadOnly) :
    (oxigraphPlainSet H N).holds (freshStore H kind) ∅ :=
  ⟨⟨hkind, .nil, fun _ hb => (List.not_mem_nil hb).elim, fun _ hk => absurd hk (Finset.notMem_empty _)⟩, .empty, .empty⟩

/-- The adapter meets the contract, in memory and on disk, on all quads that it accepts. -/
theorem oxigraph_meets_contract (H : Backend) (N : GraphNames H) (kind : Kind) (hkind : kind ≠ .onDiskReadOnly) :
    Testkit.Contract (oxigraphStorage H N) (Accepted H) (freshStore H kind) :=
  Testkit.contract_of_plainSet (oxigraphPlainSet H N) (holds_fresh H N hkind) fun _ h => h.1

/-- The IRIs of the quads that checks bring themselves are valid here, so these checks pass as well. -/
theorem oxigraph_meets_contract_integers :
    let B := oxigraphStorage integerBackend integerBackend.everNamed
    let fresh := freshStore integerBackend .onDisk
    Testkit.Contract B (Accepted integerBackend) fresh ∧
      ((Testkit.Check.graphsAreSeparate (B := B)).run.run fresh).1 = .ok () ∧
      ((Testkit.Check.writesAfterRollback (B := B)).run.run fresh).1 = .ok () := by
  intro B fresh
  have hcontract : Testkit.Contract B (Accepted integerBackend) fresh :=
    oxigraph_meets_contract integerBackend integerBackend.everNamed .onDisk (by decide)
  have hfit : ∀ {q : Quad} {o : Ox.Quad}, q.object = .named (Testkit.Check.iri "o") → quadToOx integerCrates q = .ok o →
      Accepted integerBackend q := fun hobject ho => ⟨fun l hl => (by cases hobject.symm.trans hl), not_unfit ho⟩
  exact ⟨hcontract, hcontract.graphsAreSeparate (hfit rfl rfl) (hfit rfl rfl) (hfit rfl rfl),
    hcontract.writesAfterRollback (hfit rfl rfl) (hfit rfl rfl) (hfit rfl rfl)⟩

end Semanticore.Oxigraph
