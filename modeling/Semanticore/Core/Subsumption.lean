import Semanticore.Core.Symmetric
import Semanticore.Lib.Worklist

/-!
# Subsumption

`ToySubsumption` of `semanticore-core/src/reasoner.rs`: a reasoner that understands `rdf:type` and `rdfs:subClassOf` between
named nodes. It realizes individuals, writes their types to the store, and answers from the types without writing.
-/

namespace Semanticore.Core
open Semanticore.Lib Client

/-- `ClassHierarchy` of `owl.rs`. -/
structure ClassHierarchy where
  equivalenceClasses : List (Finset NamedNode)
  directSubclassOf : List (NamedNode × NamedNode)
  unsatisfiable : List NamedNode

/-- `InstanceRealization` of `owl.rs`: the types of each individual. -/
abbrev InstanceRealization := Std.TreeMap NamedNode (Finset NamedNode)

namespace Subsumption

/-- `RDF_TYPE`. -/
def rdfType : NamedNode := ⟨"http://www.w3.org/1999/02/22-rdf-syntax-ns#type"⟩

/-- `SUB_CLASS_OF`. -/
def subClassOf : NamedNode := ⟨"http://www.w3.org/2000/01/rdf-schema#subClassOf"⟩

variable {B : Storage}

def namedPair (q : Quad) : Option (NamedNode × NamedNode) :=
  match q.subject, q.object with
  | .named s, .named o => some (s, o)
  | _, _ => none

def edges (predicate : NamedNode) : Client B (List (NamedNode × NamedNode)) := do
  let quads ← quadsForPattern (← beginRead) none (some predicate) none none
  return quads.filterMap namedPair

/-- The loop of `realization` over the asserted types. -/
def realizeAll (sub types : List (NamedNode × NamedNode)) : InstanceRealization :=
  types.foldl (fun r x => r.insert x.1 (worklist sub (r.getD x.1 ∅) [x.2])) ∅

/-- `realization`: asserted types closed upward under `rdfs:subClassOf`. -/
def realization : Client B InstanceRealization := do
  let sub ← edges subClassOf
  return realizeAll sub (← edges rdfType)

def typeQuad (i c : NamedNode) : Quad := .triple (.named i) rdfType (.named c)

def typeQuads : Client B (List Quad) := do
  return (← realization).toList.flatMap fun x => x.2.sort.map (typeQuad x.1)

def materialize : Client B MaterializationStats := do
  let derived ← typeQuads
  let tx ← beginWrite
  let (tx, added) ← derived.foldlM (fun (acc : B.Tx × Nat) q => do
    let (new, tx) ← insert acc.1 q
    return (tx, acc.2 + new.toNat)) (tx, 0)
  commit tx
  return { quadsAdded := added, quadsRemoved := 0, iterations := 1, elapsedMs := 0.0 }

/-- `on_insert`: a full recompute. -/
def onInsert (_inserted : List Quad) : Client B MaterializationStats := materialize

/-- A caller that inserts batches and tells the reasoner of each. -/
def grow (batches : List (List Quad)) : Client B Unit :=
  batches.forM fun quads => do
    load quads
    let _ ← onInsert quads

def entails (candidate : Quad) : Client B Bool := do
  if ← contains (← beginRead) candidate then return true
  return candidate ∈ (← typeQuads)

/-- `entailed_quads`. An error is the only thing that it yields. -/
def entailedQuads : Client B (List (Except StorageError Quad)) :=
  tryCatch (do return (← typeQuads).map .ok) fun e => return [.error e]

def classify : Client B ClassHierarchy := do
  return { equivalenceClasses := [], directSubclassOf := ← edges subClassOf, unsatisfiable := [] }

def realize : Client B InstanceRealization := realization

/-! ## Entailment

The rules that the reasoner applies. What it derives goes to the default graph. -/

inductive Derives (S : Set Quad) : Quad → Prop
  | asserted {q : Quad} (h : q ∈ S) : Derives S q
  | typed {i c : NamedNode} {g : NamedOrDefault} (h : Derives S ⟨.named i, rdfType, .named c, g⟩) :
      Derives S (typeQuad i c)
  | subsumed {i c d : NamedNode} {g g' : NamedOrDefault} (h : Derives S ⟨.named i, rdfType, .named c, g⟩)
      (hsub : Derives S ⟨.named c, subClassOf, .named d, g'⟩) : Derives S (typeQuad i d)

/-- All that follows from a set of quads. -/
def saturation : ClosureOperator (Set Quad) :=
  .mk₂ (fun S => {q | Derives S q}) (fun _ _ h => .asserted h) fun S T h q hq => by
    induction hq with
    | asserted hq => exact h hq
    | typed _ ih => exact .typed ih
    | subsumed _ _ ih ihsub => exact .subsumed ih ihsub

/-- The pairs of named nodes that a predicate relates, in some graph. -/
def Related (S : Finset Quad) (p a b : NamedNode) : Prop := ∃ g, ⟨.named a, p, .named b, g⟩ ∈ S

/-- `c` lies above an asserted type of `i`. -/
def HasType (S : Finset Quad) (i c : NamedNode) : Prop :=
  ∃ d, Related S rdfType i d ∧ Relation.ReflTransGen (Related S subClassOf) d c

variable {S : Finset Quad} {q : Quad} {i c : NamedNode}

theorem subClassOf_ne_rdfType : subClassOf ≠ rdfType := by
  decide

theorem hasType_of {g : NamedOrDefault} (h : ⟨.named i, rdfType, .named c, g⟩ ∈ S ∨
    ∃ i' c', (⟨.named i, rdfType, .named c, g⟩ : Quad) = typeQuad i' c' ∧ HasType S i' c') : HasType S i c := by
  rcases h with h | ⟨i', c', heq, h⟩
  · exact ⟨c, ⟨g, h⟩, .refl⟩
  · cases heq
    exact h

/-- What follows is what is asserted, and the types of the individuals. -/
theorem mem_saturation : q ∈ saturation ↑S ↔ q ∈ S ∨ ∃ i c, q = typeQuad i c ∧ HasType S i c := by
  constructor
  · intro h
    induction h with
    | asserted h => exact Or.inl h
    | typed _ ih => exact Or.inr ⟨_, _, rfl, hasType_of ih⟩
    | subsumed _ _ ih ihsub =>
        obtain ⟨d, hd, hpath⟩ := hasType_of ih
        rcases ihsub with hsub | ⟨i', c', heq, -⟩
        · exact Or.inr ⟨_, _, rfl, d, hd, hpath.tail ⟨_, hsub⟩⟩
        · exact (subClassOf_ne_rdfType (congrArg Quad.predicate heq)).elim
  · rintro (h | ⟨i, c, rfl, d, ⟨g, hd⟩, hpath⟩)
    · exact .asserted h
    · induction hpath with
      | refl => exact .typed (.asserted hd)
      | tail _ hedge ih =>
          obtain ⟨g', hsub⟩ := hedge
          exact .subsumed ih (.asserted hsub)

theorem typeQuad_mem_saturation : typeQuad i c ∈ saturation ↑S ↔ HasType S i c :=
  mem_saturation.trans ⟨hasType_of, fun h => Or.inr ⟨i, c, rfl, h⟩⟩

/-! ## Realization -/

theorem namedPair_eq_some {a b : NamedNode} : namedPair q = some (a, b) ↔ q.subject = .named a ∧ q.object = .named b := by
  obtain ⟨s, p, o, g⟩ := q
  cases s <;> cases o <;> simp [namedPair]

/-- The types in the map are those that the edges lead to from the pairs that went into it. -/
theorem mem_realizeAll {sub types : List (NamedNode × NamedNode)} :
    c ∈ (realizeAll sub types).getD i ∅ ↔ ∃ d, (i, d) ∈ types ∧ Reaches sub d c := by
  induction types using List.reverseRecOn generalizing c with
  | nil => simp [realizeAll]
  | append_singleton types x ih =>
      obtain ⟨j, e⟩ := x
      have hclosed : Closed sub ((realizeAll sub types).getD i ∅) := fun a ha b hb => by
        obtain ⟨d, hd, hr⟩ := ih.mp ha
        exact ih.mpr ⟨d, hd, hr.tail hb⟩
      have hstep : realizeAll sub (types ++ [(j, e)]) =
          (realizeAll sub types).insert j (worklist sub ((realizeAll sub types).getD j ∅) [e]) := by
        simp [realizeAll]
      rw [hstep, Std.TreeMap.getD_insert]
      by_cases hij : j = i
      · subst hij
        rw [if_pos (Std.LawfulEqOrd.compare_eq_iff_eq.mpr rfl), mem_worklist fun a ha b hb => Or.inl (hclosed a ha b hb), ih]
        simp [or_and_right, exists_or]
      · rw [if_neg (mt Std.LawfulEqOrd.compare_eq_iff_eq.mp hij), ih]
        simp [Ne.symm hij]

theorem reaches_iff_related {sub : List (NamedNode × NamedNode)} (hsub : ∀ a b, (a, b) ∈ sub ↔ Related S subClassOf a b)
    {a b : NamedNode} : Reaches sub a b ↔ Relation.ReflTransGen (Related S subClassOf) a b := by
  simp only [Reaches, hsub]

theorem mem_foldl_insert {qs : List Quad} :
    q ∈ qs.foldl (fun T r => Insert.insert r T) S ↔ q ∈ S ∨ q ∈ qs := by
  induction qs generalizing S with
  | nil => simp
  | cons r qs ih => simp [ih, or_assoc, or_left_comm]

/-! ## The code -/

section
variable (K : B.PlainSet fun _ => True) {s : B.Store}

include K

theorem edges_succeeds (h : K.holds s S) (p : NamedNode) : Succeeds (edges (B := B) p) s fun pairs s' =>
    (∀ a b, (a, b) ∈ pairs ↔ Related S p a b) ∧ s' = s := by
  refine (beginRead_succeeds K h).next fun tx htx => ?_
  refine (quadsForPattern_succeeds K (.inr htx) fun l hl => by cases hl).next fun qs hqs => .ret ⟨fun a b => ?_, rfl⟩
  simp only [List.mem_filterMap, hqs.2, namedPair_eq_some, matchesPattern, Option.all_none, Option.all_some, Bool.true_and,
    Bool.and_true, decide_eq_true_eq]
  constructor
  · rintro ⟨⟨s, p, o, g⟩, ⟨hq, rfl⟩, rfl, rfl⟩
    exact ⟨g, hq⟩
  · rintro ⟨g, hq⟩
    exact ⟨_, ⟨hq, rfl⟩, rfl, rfl⟩

theorem realization_succeeds (h : K.holds s S) : Succeeds (realization (B := B)) s fun r s' =>
    (∀ i c, c ∈ r.getD i ∅ ↔ HasType S i c) ∧ s' = s := by
  refine (edges_succeeds K h subClassOf).next fun sub hsub => (edges_succeeds K h rdfType).next fun types htypes => ?_
  refine .ret ⟨fun i c => ?_, rfl⟩
  rw [mem_realizeAll]
  simp only [htypes, reaches_iff_related hsub]
  rfl

theorem typeQuads_succeeds (h : K.holds s S) : Succeeds (typeQuads (B := B)) s fun qs s' =>
    (∀ q, q ∈ qs ↔ ∃ i c, q = typeQuad i c ∧ HasType S i c) ∧ s' = s := by
  refine (realization_succeeds K h).next fun r hr => .ret ⟨fun q => ?_, rfl⟩
  simp only [List.mem_flatMap, List.mem_map, Finset.mem_sort, Prod.exists, Std.TreeMap.mem_toList_iff_getElem?_eq_some]
  constructor
  · rintro ⟨i, ts, hts, c, hc, rfl⟩
    refine ⟨i, c, rfl, (hr i c).mp ?_⟩
    rwa [Std.TreeMap.getD_eq_getD_getElem?, hts]
  · rintro ⟨i, c, rfl, hc⟩
    have hmem := (hr i c).mpr hc
    rw [Std.TreeMap.getD_eq_getD_getElem?] at hmem
    cases hts : r[i]? with
    | none => simp [hts] at hmem
    | some ts =>
        rw [hts] at hmem
        exact ⟨i, ts, hts, c, hmem, rfl⟩

/-- The store afterwards holds all that follows, and the count is of what was new. -/
theorem materialize_succeeds (h : K.holds s S) : Succeeds (materialize (B := B)) s fun stats s' =>
    ∃ T : Finset Quad, K.holds s' T ∧ (T : Set Quad) = saturation ↑S ∧ stats.quadsAdded + S.card = T.card := by
  refine (typeQuads_succeeds K h).next fun derived hderived => (beginWrite_succeeds K h).next fun tx htx => ?_
  refine (foldlM_counted K (g := fun T q => Insert.insert q T) (fun tx n T q hT => ?_) htx).next fun r hr => ?_
  · refine (insert_succeeds K hT trivial).next fun r hr => .ret ⟨⟨hr.2, ?_⟩, rfl⟩
    by_cases hq : q ∈ T
    · simp [hr.1, hq]
    · simp [hr.1, hq]
      omega
  · refine (commit_succeeds K hr.1).bind fun _ s' hs' => .ret ⟨_, hs', ?_, hr.2⟩
    ext q
    rw [Finset.mem_coe, mem_foldl_insert, hderived, mem_saturation]

theorem entails_succeeds (h : K.holds s S) (q : Quad) :
    Succeeds (entails (B := B) q) s fun b s' => (b = true ↔ q ∈ saturation ↑S) ∧ s' = s := by
  refine (beginRead_succeeds K h).next fun tx htx => (contains_succeeds K (.inr htx) trivial).next fun b hb => ?_
  subst hb
  rw [mem_saturation]
  by_cases hq : q ∈ S
  · simp only [hq, decide_true, if_true]
    exact .ret ⟨by simp, rfl⟩
  · simp only [hq, decide_false, Bool.false_eq_true, if_false, false_or]
    exact (typeQuads_succeeds K h).next fun qs hqs => .ret ⟨by rw [decide_eq_true_iff, hqs], rfl⟩

theorem entailedQuads_succeeds (h : K.holds s S) : Succeeds (entailedQuads (B := B)) s fun listed s' =>
    (∃ qs : List Quad, listed = qs.map .ok ∧ ∀ q, q ∈ qs ↔ ∃ i c, q = typeQuad i c ∧ HasType S i c) ∧ s' = s :=
  .caught ((typeQuads_succeeds K h).next fun qs hqs => .ret ⟨⟨qs, rfl, hqs⟩, rfl⟩)

theorem classify_succeeds (h : K.holds s S) : Succeeds (classify (B := B)) s fun hierarchy s' =>
    (∀ a b, (a, b) ∈ hierarchy.directSubclassOf ↔ Related S subClassOf a b) ∧ s' = s :=
  (edges_succeeds K h subClassOf).next fun _ hpairs => .ret ⟨hpairs, rfl⟩

/-- The caller inserts a batch and tells the reasoner. -/
theorem batch_succeeds {X : Set Quad} {quads : List Quad} (h : K.holds s S) (hS : (S : Set Quad) = saturation X) :
    Succeeds (do load quads; let _ ← onInsert (B := B) quads) s fun _ s' =>
      ∃ T : Finset Quad, K.holds s' T ∧ (T : Set Quad) = saturation (X ∪ {q | q ∈ quads}) := by
  refine (load_succeeds K h fun _ _ => trivial).bind fun _ s' hs' => ?_
  refine (materialize_succeeds K hs').bind fun stats s'' => ?_
  rintro ⟨T, hT, hsat, -⟩
  refine .ret ⟨T, hT, ?_⟩
  rw [hsat, Finset.coe_union, hS, List.coe_toFinset]
  exact saturation.closure_sup_closure_left X _

theorem batches_succeed {X : Set Quad} {batches : List (List Quad)} (h : K.holds s S) (hS : (S : Set Quad) = saturation X) :
    Succeeds (grow (B := B) batches) s fun _ s' =>
      ∃ T : Finset Quad, K.holds s' T ∧ (T : Set Quad) = saturation (X ∪ {q | ∃ quads ∈ batches, q ∈ quads}) := by
  induction batches generalizing s S X with
  | nil => exact .ret ⟨S, h, by simp [hS]⟩
  | cons quads batches ih =>
      refine Succeeds.bind (batch_succeeds K h hS) fun _ s' => ?_
      rintro ⟨T, hT, hsat⟩
      have hunion : X ∪ {q | q ∈ quads} ∪ {q | ∃ quads ∈ batches, q ∈ quads} =
          X ∪ {q | ∃ quads' ∈ quads :: batches, q ∈ quads'} := by
        ext q
        simp [or_assoc]
      exact hunion ▸ ih hT hsat

end

/-- Materializing writes exactly what follows from the store by the rules, and counts what was new; nothing is left for a
second time. Without writing, `entails` answers the same, `entailed_quads` lists the types, and `realize` gives each individual
the classes above its asserted types in the hierarchy of `classify`: those that materializing gives it. -/
theorem subsumption_exact (K : B.PlainSet fun _ => True) {s : B.Store} {S : Finset Quad} (h : K.holds s S) :
    ∃ hierarchy r, ∃ listed : List Quad, ∃ stats s' T, classify.run.run s = (.ok hierarchy, s) ∧
      realize.run.run s = (.ok r, s) ∧ entailedQuads.run.run s = (.ok (listed.map .ok), s) ∧
      materialize.run.run s = (.ok stats, s') ∧ K.holds s' T ∧
      (∀ q, q ∈ T ↔ Derives ↑S q) ∧ (∀ q, q ∈ T ↔ q ∈ S ∨ q ∈ listed) ∧ stats.quadsAdded + S.card = T.card ∧
      (∀ q, (entails q).run.run s = (.ok (decide (q ∈ T)), s)) ∧
      (∀ i c, c ∈ r.getD i ∅ ↔ ∃ d g, ⟨.named i, rdfType, .named d, g⟩ ∈ S ∧ Reaches hierarchy.directSubclassOf d c) ∧
      (∀ i c, c ∈ r.getD i ∅ ↔ typeQuad i c ∈ T) ∧
      ∃ stats' s'', materialize.run.run s' = (.ok stats', s'') ∧ K.holds s'' T ∧ stats'.quadsAdded = 0 := by
  obtain ⟨hierarchy, s', hclassify, hdirect, rfl⟩ := (classify_succeeds K h).returns
  obtain ⟨r, s', hrealize, htypes, rfl⟩ := (realization_succeeds K h).returns
  obtain ⟨_, s', hlisted, ⟨listed, rfl, hmem⟩, rfl⟩ := (entailedQuads_succeeds K h).returns
  obtain ⟨stats, s'', hmaterialize, T, hT, hsat, hcount⟩ := (materialize_succeeds K h).returns
  have hderives : ∀ q, q ∈ T ↔ Derives ↑S q := fun q => by
    rw [← Finset.mem_coe, hsat]
    rfl
  have hunion : ∀ q, q ∈ T ↔ q ∈ S ∨ q ∈ listed := fun q => by
    rw [← Finset.mem_coe, hsat, mem_saturation, hmem]
  refine ⟨hierarchy, r, listed, stats, s'', T, hclassify, hrealize, hlisted, hmaterialize, hT, hderives, hunion, hcount,
    fun q => ?_, fun i c => ?_, fun i c => ?_, ?_⟩
  · obtain ⟨answer, s₁, hanswer, hiff, rfl⟩ := (entails_succeeds K h q).returns
    have heq : answer = decide (q ∈ T) := by
      rw [Bool.eq_iff_iff, decide_eq_true_iff, hiff, ← Finset.mem_coe, hsat]
    rw [hanswer, heq]
  · rw [htypes, HasType]
    simp only [reaches_iff_related hdirect, Related, exists_and_right]
  · rw [htypes, ← typeQuad_mem_saturation, ← Finset.mem_coe, hsat]
  · obtain ⟨stats', s₂, hagain, T', hT', hsat', hcount'⟩ := (materialize_succeeds K hT).returns
    have heq : T' = T := Finset.coe_injective (by rw [hsat', hsat, saturation.idempotent])
    subst heq
    exact ⟨stats', s₂, hagain, hT', by omega⟩

/-- Classes that include each other: `tom` is in both. -/
theorem subsumption_exact_cycle :
    let quads := [⟨.named (ex "Cat"), subClassOf, .named (ex "Feline"), .default⟩,
      ⟨.named (ex "Feline"), subClassOf, .named (ex "Cat"), .default⟩, typeQuad (ex "tom") (ex "Cat")]
    let K := Naive.plainSet (fun _ => True) fun _ _ => trivial
    let store : Naive.MemStore := ⟨quads⟩
    ∃ stats s' T, (materialize (B := Naive.memStorage)).run.run store = (.ok stats, s') ∧ K.holds s' T ∧
      typeQuad (ex "tom") (ex "Feline") ∈ T := by
  intro quads K store
  have hnodup : quads.Nodup := by
    have hne : ex "Cat" ≠ ex "Feline" := fun h => by simpa using ex_injective h
    simp [quads, typeQuad, Quad.triple, hne, subClassOf_ne_rdfType]
  have hholds : K.holds store quads.toFinset := ⟨hnodup, rfl, fun _ _ => trivial⟩
  obtain ⟨_, _, _, stats, s', T, -, -, -, hrun, hT, hderives, -⟩ := subsumption_exact K hholds
  refine ⟨stats, s', T, hrun, hT, (hderives _).mpr ?_⟩
  have htom : Derives ↑quads.toFinset (typeQuad (ex "tom") (ex "Cat")) := .asserted (by simp [quads])
  have hcat : Derives ↑quads.toFinset ⟨.named (ex "Cat"), subClassOf, .named (ex "Feline"), .default⟩ :=
    .asserted (by simp [quads])
  exact .subsumed htom hcat

/-- A store that grows batch by batch, with the reasoner told of each, ends up like one that gets all quads at once. -/
theorem batches_agree (K : B.PlainSet fun _ => True) {s : B.Store} {S : Finset Quad} (h : K.holds s S)
    (batches : List (List Quad)) :
    ∃ s' s'' T, (do let _ ← materialize; grow batches).run.run s = (.ok (), s') ∧
      (do load batches.flatten; let _ ← materialize).run.run s = (.ok (), s'') ∧ K.holds s' T ∧ K.holds s'' T ∧
        ∀ q, q ∈ T ↔ Derives (↑S ∪ {q | ∃ quads ∈ batches, q ∈ quads}) q := by
  have hgrow : Succeeds (do let _ ← materialize (B := B); grow batches) s fun _ s' => ∃ T : Finset Quad, K.holds s' T ∧
      (T : Set Quad) = saturation (↑S ∪ {q | ∃ quads ∈ batches, q ∈ quads}) := by
    refine (materialize_succeeds K h).bind fun stats s' => ?_
    rintro ⟨T, hT, hsat, -⟩
    exact batches_succeed K hT hsat
  have hload : Succeeds (do load (B := B) batches.flatten; let _ ← materialize) s fun _ s' => ∃ T : Finset Quad,
      K.holds s' T ∧ (T : Set Quad) = saturation (↑S ∪ {q | ∃ quads ∈ batches, q ∈ quads}) := by
    refine (load_succeeds K h fun _ _ => trivial).bind fun _ s' hs' => ?_
    refine (materialize_succeeds K hs').bind fun stats s'' => ?_
    rintro ⟨T, hT, hsat, -⟩
    refine .ret ⟨T, hT, ?_⟩
    rw [hsat, Finset.coe_union, List.coe_toFinset]
    simp only [List.mem_flatten]
  obtain ⟨_, s', hgrow, T, hT, hsat⟩ := hgrow.returns
  obtain ⟨_, s'', hload, T', hT', hsat'⟩ := hload.returns
  cases Finset.coe_injective (hsat'.trans hsat.symm)
  refine ⟨s', s'', T, hgrow, hload, hT, hT', fun q => ?_⟩
  rw [← Finset.mem_coe, hsat]
  rfl

/-- The individual comes first and its class in the next batch. -/
theorem batches_agree_class_later :
    let tom := typeQuad (ex "tom") (ex "Cat")
    let cat : Quad := ⟨.named (ex "Cat"), subClassOf, .named (ex "Animal"), .default⟩
    let K := Naive.plainSet (fun _ => True) fun _ _ => trivial
    let store : Naive.MemStore := ⟨[]⟩
    ∃ s' T, (do let _ ← materialize (B := Naive.memStorage); grow [[tom], [cat]]).run.run store = (.ok (), s') ∧
      K.holds s' T ∧ typeQuad (ex "tom") (ex "Animal") ∈ T := by
  intro tom cat K store
  have hholds : K.holds store ∅ := ⟨.nil, rfl, by simp⟩
  obtain ⟨s', _, T, hrun, -, hT, -, hderives⟩ := batches_agree K hholds [[tom], [cat]]
  have htom : Derives (↑(∅ : Finset Quad) ∪ {q | ∃ quads ∈ [[tom], [cat]], q ∈ quads}) tom := .asserted (by simp)
  have hcat : Derives (↑(∅ : Finset Quad) ∪ {q | ∃ quads ∈ [[tom], [cat]], q ∈ quads}) cat := .asserted (by simp)
  exact ⟨s', T, hrun, hT, (hderives _).mpr (.subsumed htom hcat)⟩

end Subsumption

end Semanticore.Core
