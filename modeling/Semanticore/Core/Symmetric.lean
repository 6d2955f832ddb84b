import Semanticore.Core.Client
import Semanticore.Core.NaiveStore

/-!
# Symmetric reasoners

`SymmetricClosure` of `semanticore-core/src/reasoner.rs` writes the converse of what is asserted into a graph of its own and
keeps it current under updates. `SymmetricKnows` of `semanticore-core/src/lib.rs` answers without writing.
-/

namespace Semanticore.Core
open Semanticore.Lib Client

/-- `ex`: shorthand for an `https://example.org/` IRI. -/
def ex (name : String) : NamedNode := ⟨"https://example.org/" ++ name⟩

theorem ex_injective : Function.Injective ex := fun _ _ h =>
  (String.append_right_inj _).mp (congrArg NamedNode.iri h)

def knows : NamedNode := ex "knows"

structure MaterializationStats where
  quadsAdded : Nat
  quadsRemoved : Nat
  iterations : Nat
  elapsedMs : Float

variable {B : Storage}

namespace SymmetricClosure

/-- `inferred`: the graph that only the reasoner writes to. -/
def inferred : NamedOrDefault := .named (ex "inferred")

/-- What `add_converses` makes of a quad. -/
def converse (q : Quad) : Option Quad :=
  match q.subject, q.object with
  | .named s, .named o => some { subject := .named o, predicate := q.predicate, object := .named s, graph := inferred }
  | _, _ => none

def addConverses (asserted : List Quad) : Client B MaterializationStats := do
  let tx ← beginWrite
  let (tx, added) ← asserted.foldlM (fun (acc : B.Tx × Nat) q => do
    match converse q with
    | some converse =>
        -- nothing is written if the converse is asserted next to the quad itself
        if ← contains acc.1 { converse with graph := q.graph } then return acc
        let (new, tx) ← insert acc.1 converse
        return (tx, if new then acc.2 + 1 else acc.2)
    | none => return acc) (tx, 0)
  commit tx
  return { quadsAdded := added, quadsRemoved := 0, iterations := 1, elapsedMs := 0.0 }

def materialize : Client B MaterializationStats := do
  let asserted ← quadsForPattern (← beginRead) none (some knows) none (some .default)
  addConverses asserted

def dematerialize : Client B Unit := do
  let tx ← beginWrite
  let quads ← quadsForPattern tx none none none (some inferred)
  let tx ← removeEach tx quads
  commit tx

def onInsert (inserted : List Quad) : Client B MaterializationStats :=
  addConverses (inserted.filter (·.predicate = knows))

/-- `on_remove`: recompute from the asserted base. -/
def onRemove (_removed : List Quad) : Client B MaterializationStats := do
  dematerialize
  materialize

/-! ## Updates

A caller updates the store in its own transaction and tells the reasoner afterwards. -/

inductive Update
  | insert (quads : List Quad)
  | remove (quads : List Quad)

def Update.apply : Update → Client B Unit
  | .insert quads => do
      load quads
      let _ ← onInsert quads
  | .remove quads => do
      unload quads
      let _ ← onRemove quads

/-- The updates, one after another, of a store that was materialized. -/
def maintain (us : List Update) : Client B Unit := do
  let _ ← materialize
  us.forM Update.apply

/-- The inferred graph is left alone, and what the reasoner reasons about is asserted in the default graph. -/
def Update.Allowed : Update → Prop
  | .insert quads => ∀ q ∈ quads, q.graph ≠ inferred ∧ (q.predicate = knows → q.graph = .default)
  | .remove _ => True

/-- What the caller has asserted. -/
def Update.base (A : Finset Quad) : Update → Finset Quad
  | .insert quads => A ∪ quads.toFinset
  | .remove quads => A \ quads.toFinset

/-! ## The inferred graph -/

def knowsQuad (a b : NamedNode) (g : NamedOrDefault) : Quad :=
  { subject := .named a, predicate := knows, object := .named b, graph := g }

/-- The asserted part of a store. -/
def asserted (S : Finset Quad) : Finset Quad := S.filter (·.graph ≠ inferred)

/-- A round of `add_converses`. -/
def withConverse (S : Finset Quad) (q : Quad) : Finset Quad :=
  match converse q with
  | some converse => if { converse with graph := q.graph } ∈ S then S else Insert.insert converse S
  | none => S

/-- Every asserted quad has its converse asserted or inferred, and nothing else is inferred. -/
structure Current (S : Finset Quad) : Prop where
  covered : ∀ a b, knowsQuad a b .default ∈ S → knowsQuad b a .default ∈ S ∨ knowsQuad b a inferred ∈ S
  derived : ∀ q ∈ S, q.graph = inferred → ∃ a b, q = knowsQuad b a inferred ∧ knowsQuad a b .default ∈ S

variable {S : Finset Quad} {q r : Quad} {qs : List Quad}

theorem converse_eq_some : converse q = some r ↔
    ∃ a b, q.subject = .named a ∧ q.object = .named b ∧ r = ⟨.named b, q.predicate, .named a, inferred⟩ := by
  obtain ⟨s, p, o, g⟩ := q
  cases s <;> cases o <;> simp [converse, eq_comm]

theorem converse_knows (hknows : q.predicate = knows) (hgraph : q.graph = .default) (h : converse q = some r) :
    ∃ a b, q = knowsQuad a b .default ∧ r = knowsQuad b a inferred := by
  obtain ⟨a, b, ha, hb, rfl⟩ := converse_eq_some.mp h
  obtain ⟨s, p, o, g⟩ := q
  simp only at ha hb hknows hgraph
  subst ha hb hknows hgraph
  exact ⟨a, b, rfl, rfl⟩

theorem converse_graph (h : converse q = some r) : r.graph = inferred := by
  obtain ⟨a, b, -, -, rfl⟩ := converse_eq_some.mp h
  rfl

theorem mem_withConverse : r ∈ withConverse S q ↔ r ∈ S ∨ converse q = some r ∧ { r with graph := q.graph } ∉ S := by
  unfold withConverse
  cases converse q with
  | none => simp
  | some c =>
      simp only [Option.some.injEq]
      split
      · rename_i h
        refine ⟨Or.inl, ?_⟩
        rintro (hr | ⟨rfl, hnot⟩)
        · exact hr
        · exact (hnot h).elim
      · rename_i h
        rw [Finset.mem_insert]
        constructor
        · rintro (rfl | hr)
          · exact Or.inr ⟨rfl, h⟩
          · exact Or.inl hr
        · rintro (hr | ⟨rfl, -⟩)
          · exact Or.inr hr
          · exact Or.inl rfl

theorem mem_withConverse_of_ne (h : r.graph ≠ inferred) : r ∈ withConverse S q ↔ r ∈ S := by
  rw [mem_withConverse]
  exact or_iff_left fun hc => h (converse_graph hc.1)

/-- The converses of quads outside the inferred graph: the order of the rounds does not matter. -/
theorem mem_foldl_withConverse (hgraph : ∀ q ∈ qs, q.graph ≠ inferred) :
    r ∈ qs.foldl withConverse S ↔ r ∈ S ∨ ∃ q ∈ qs, converse q = some r ∧ { r with graph := q.graph } ∉ S := by
  induction qs generalizing S with
  | nil => simp
  | cons q qs ih =>
      obtain ⟨-, hqs⟩ := List.forall_mem_cons.mp hgraph
      rw [List.foldl_cons, ih hqs, mem_withConverse, List.exists_mem_cons_iff, or_assoc]
      refine or_congr_right (or_congr_right (exists_congr fun q' => and_congr_right fun hq' => and_congr_right fun _ => ?_))
      exact not_congr (mem_withConverse_of_ne (hqs q' hq'))

theorem asserted_foldl (S : Finset Quad) : asserted (qs.foldl withConverse S) = asserted S := by
  induction qs generalizing S with
  | nil => rfl
  | cons q qs ih =>
      rw [List.foldl_cons, ih]
      ext r
      simp only [asserted, Finset.mem_filter]
      exact and_congr_left fun h => mem_withConverse_of_ne h

/-- Adding the converses of quads that cover what is not covered yet makes the inferred graph current. -/
theorem current_foldl (hqs : ∀ q ∈ qs, q ∈ S ∧ q.predicate = knows ∧ q.graph = .default)
    (hcovered : ∀ a b, knowsQuad a b .default ∈ S →
      knowsQuad a b .default ∈ qs ∨ knowsQuad b a .default ∈ S ∨ knowsQuad b a inferred ∈ S)
    (hderived : ∀ q ∈ S, q.graph = inferred → ∃ a b, q = knowsQuad b a inferred ∧ knowsQuad a b .default ∈ S) :
    Current (qs.foldl withConverse S) := by
  have hmem : ∀ r, r ∈ qs.foldl withConverse S ↔ r ∈ S ∨ ∃ q ∈ qs, converse q = some r ∧ { r with graph := q.graph } ∉ S :=
    fun r => mem_foldl_withConverse fun q hq => by simp [(hqs q hq).2.2, inferred]
  have hdefault : ∀ a b, knowsQuad a b .default ∈ qs.foldl withConverse S ↔ knowsQuad a b .default ∈ S := by
    intro a b
    rw [hmem]
    exact or_iff_left fun ⟨q, _, hq, _⟩ => by simpa [knowsQuad, inferred] using converse_graph hq
  constructor
  · intro a b hab
    rw [hdefault] at hab
    rw [hdefault, hmem]
    by_cases hba : knowsQuad b a .default ∈ S
    · exact Or.inl hba
    · rcases hcovered a b hab with hnew | hold | hold
      · exact Or.inr (Or.inr ⟨_, hnew, rfl, hba⟩)
      · exact Or.inl hold
      · exact Or.inr (Or.inl hold)
  · intro q hq hgraph
    simp only [hdefault]
    rcases (hmem q).mp hq with hq | ⟨q', hq', hconverse, -⟩
    · exact hderived q hq hgraph
    · obtain ⟨hS, hknows, hdef⟩ := hqs q' hq'
      obtain ⟨a, b, rfl, rfl⟩ := converse_knows hknows hdef hconverse
      exact ⟨a, b, rfl, hS⟩

/-- There is nothing left to materialize. -/
theorem Current.foldl (h : Current S) (hqs : ∀ q ∈ qs, q ∈ S ∧ q.predicate = knows ∧ q.graph = .default) :
    qs.foldl withConverse S = S := by
  ext r
  rw [mem_foldl_withConverse fun q hq => by simp [(hqs q hq).2.2, inferred]]
  refine or_iff_left_of_imp ?_
  rintro ⟨q, hq, hconverse, hnot⟩
  obtain ⟨hS, hknows, hdef⟩ := hqs q hq
  obtain ⟨a, b, rfl, rfl⟩ := converse_knows hknows hdef hconverse
  exact (h.covered a b hS).resolve_left hnot

/-- `a` is seen to know `b`, by assertion or by inference. -/
def Shown (S : Finset Quad) (a b : NamedNode) : Prop := knowsQuad a b .default ∈ S ∨ knowsQuad a b inferred ∈ S

theorem knowsQuad_inj {a b a' b' : NamedNode} {g g' : NamedOrDefault} :
    knowsQuad a b g = knowsQuad a' b' g' ↔ a = a' ∧ b = b' ∧ g = g' := by
  simp [knowsQuad]

theorem mem_asserted {a b : NamedNode} : knowsQuad a b .default ∈ asserted S ↔ knowsQuad a b .default ∈ S := by
  rw [asserted, Finset.mem_filter]
  exact and_iff_left (by simp [knowsQuad, inferred])

theorem Current.shown (h : Current S) (a b : NamedNode) :
    Shown S a b ↔ knowsQuad a b .default ∈ asserted S ∨ knowsQuad b a .default ∈ asserted S := by
  rw [mem_asserted, mem_asserted]
  refine or_congr_right' fun hab => ⟨fun hinf => ?_, fun hba => ?_⟩
  · obtain ⟨a', b', heq, hS⟩ := h.derived _ hinf rfl
    obtain ⟨rfl, rfl, -⟩ := knowsQuad_inj.mp heq
    exact hS
  · exact (h.covered b a hba).resolve_left hab

/-! ## The code -/

section
variable (K : B.PlainSet fun _ => True) {s : B.Store}

include K

theorem addConverses_succeeds (h : K.holds s S) : Succeeds (addConverses (B := B) qs) s fun stats s' =>
    K.holds s' (qs.foldl withConverse S) ∧ stats.quadsAdded + S.card = (qs.foldl withConverse S).card := by
  refine (beginWrite_succeeds K h).next fun tx htx => ?_
  refine (foldlM_counted K (g := withConverse) (fun tx n T q hT => ?_) htx).next fun r hr => ?_
  · dsimp only [withConverse]
    cases converse q with
    | none => exact .ret ⟨⟨hT, rfl⟩, rfl⟩
    | some c =>
        refine (contains_succeeds K (.inl hT) trivial).next fun b hb => ?_
        subst hb
        by_cases hmem : { c with graph := q.graph } ∈ T
        · simp only [hmem, decide_true, if_true]
          exact .ret ⟨⟨hT, rfl⟩, rfl⟩
        · simp only [hmem, decide_false, Bool.false_eq_true, if_false]
          refine (insert_succeeds K hT trivial).next fun r hr => .ret ⟨⟨hr.2, ?_⟩, rfl⟩
          by_cases hc : c ∈ T
          · simp [hr.1, hc]
          · simp [hr.1, hc]
            omega
  · exact (commit_succeeds K hr.1).bind fun _ s' hs' => .ret ⟨hs', hr.2⟩

/-- The converses of what is asserted by default are added. -/
theorem materialize_succeeds (h : K.holds s S) : Succeeds (materialize (B := B)) s fun stats s' => ∃ qs : List Quad,
    (∀ q, q ∈ qs ↔ q ∈ S ∧ q.predicate = knows ∧ q.graph = .default) ∧ K.holds s' (qs.foldl withConverse S) ∧
      stats.quadsAdded + S.card = (qs.foldl withConverse S).card := by
  refine (beginRead_succeeds K h).next fun tx htx => ?_
  refine (quadsForPattern_succeeds K (.inr htx) fun l hl => by cases hl).next fun qs hqs => ?_
  refine (addConverses_succeeds K h).mono fun stats s' hs' => ⟨qs, fun q => ?_, hs'⟩
  simp [hqs.2 q, matchesPattern]

theorem dematerialize_succeeds (h : K.holds s S) :
    Succeeds (dematerialize (B := B)) s fun _ s' => K.holds s' (asserted S) := by
  refine (beginWrite_succeeds K h).next fun tx htx => ?_
  refine (quadsForPattern_succeeds K (.inl htx) fun l hl => by cases hl).next fun qs hqs => ?_
  refine (removeEach_succeeds K htx fun _ _ => trivial).next fun tx htx => ?_
  have hrest : S \ qs.toFinset = asserted S := by
    ext q
    simp only [asserted, Finset.mem_sdiff, Finset.mem_filter, List.mem_toFinset, hqs.2 q, matchesPattern, Option.all_none,
      Option.all_some, Bool.true_and, decide_eq_true_eq]
    tauto
  exact commit_succeeds K (hrest ▸ htx)

/-- Materializing a store in which nothing is inferred yet. -/
theorem materialize_current (h : K.holds s S) (hbase : ∀ q ∈ S, q.graph ≠ inferred) :
    Succeeds (materialize (B := B)) s fun _ s' => ∃ T, K.holds s' T ∧ Current T ∧ asserted T = asserted S := by
  refine (materialize_succeeds K h).mono ?_
  rintro stats s' ⟨qs, hqs, hT, -⟩
  refine ⟨_, hT, current_foldl (fun q hq => (hqs q).mp hq) (fun a b hab => Or.inl ?_) ?_, asserted_foldl S⟩
  · exact (hqs _).mpr ⟨hab, rfl, rfl⟩
  · exact fun q hq hgraph => (hbase q hq hgraph).elim

theorem apply_succeeds {u : Update} (hu : u.Allowed) (h : K.holds s S) (hcurrent : Current S) :
    Succeeds (u.apply (B := B)) s fun _ s' =>
      ∃ T, K.holds s' T ∧ Current T ∧ asserted T = u.base (asserted S) := by
  cases u with
  | insert quads =>
      refine (load_succeeds K h fun _ _ => trivial).bind fun _ s' hs' => ?_
      refine (addConverses_succeeds K hs').bind fun _ s'' hs'' => .ret ⟨_, hs''.1, ?_, ?_⟩
      · refine current_foldl ?_ ?_ ?_
        · intro q hq
          obtain ⟨hq, hknows⟩ := List.mem_filter.mp hq
          rw [decide_eq_true_eq] at hknows
          exact ⟨Finset.mem_union_right _ (List.mem_toFinset.mpr hq), hknows, (hu q hq).2 hknows⟩
        · intro a b hab
          rcases Finset.mem_union.mp hab with hS | hnew
          · exact Or.inr ((hcurrent.covered a b hS).imp (Finset.mem_union_left _) (Finset.mem_union_left _))
          · exact Or.inl (List.mem_filter.mpr ⟨List.mem_toFinset.mp hnew, by simp [knowsQuad]⟩)
        · intro q hq hgraph
          rcases Finset.mem_union.mp hq with hS | hnew
          · obtain ⟨a, b, rfl, hab⟩ := hcurrent.derived q hS hgraph
            exact ⟨a, b, rfl, Finset.mem_union_left _ hab⟩
          · exact ((hu q (List.mem_toFinset.mp hnew)).1 hgraph).elim
      · rw [asserted_foldl, asserted, Finset.filter_union, Update.base, asserted]
        exact congrArg _ (Finset.filter_true_of_mem fun q hq => (hu q (List.mem_toFinset.mp hq)).1)
  | remove quads =>
      refine (unload_succeeds K h fun _ _ => trivial).bind fun _ s' hs' => ?_
      refine Succeeds.bind ((dematerialize_succeeds K hs').bind fun _ s'' hs'' =>
        materialize_current K hs'' fun q hq => (Finset.mem_filter.mp hq).2) fun _ s'' => ?_
      rintro ⟨T, hT, hcurrent', hbase⟩
      refine .ret ⟨T, hT, hcurrent', ?_⟩
      rw [hbase]
      ext q
      simp only [asserted, Update.base, Finset.mem_filter, Finset.mem_sdiff]
      tauto

theorem updates_succeed {us : List Update} (hus : ∀ u ∈ us, u.Allowed) (h : K.holds s S) (hcurrent : Current S) :
    Succeeds (us.forM (Update.apply (B := B))) s fun _ s' =>
      ∃ T, K.holds s' T ∧ Current T ∧ asserted T = us.foldl Update.base (asserted S) := by
  induction us generalizing s S with
  | nil => exact .ret ⟨S, h, hcurrent, rfl⟩
  | cons u us ih =>
      obtain ⟨hu, hus⟩ := List.forall_mem_cons.mp hus
      refine Succeeds.bind (apply_succeeds K hu h hcurrent) fun _ s' => ?_
      rintro ⟨T, hT, hcurrent', hbase⟩
      rw [List.foldl_cons, ← hbase]
      exact ih hus hT hcurrent'

theorem maintain_succeeds {us : List Update} (hus : ∀ u ∈ us, u.Allowed) (h : K.holds s S)
    (hbase : ∀ q ∈ S, q.graph ≠ inferred) : Succeeds (maintain (B := B) us) s fun _ s' =>
      ∃ T, K.holds s' T ∧ Current T ∧ asserted T = us.foldl Update.base S := by
  have hS : asserted S = S := Finset.filter_true_of_mem hbase
  refine Succeeds.bind (materialize_current K h hbase) fun _ s' => ?_
  rintro ⟨T, hT, hcurrent, hasserted⟩
  rw [← hS, ← hasserted]
  exact updates_succeed K hus hT hcurrent

end

end SymmetricClosure

namespace SymmetricKnows

/-- `entails`. It only reasons about `ex:knows` between named nodes. -/
def entails (candidate : Quad) : Client B Bool := do
  let tx ← beginRead
  if ← contains tx candidate then return true
  match candidate.subject, candidate.object with
  | .named s, .named o =>
      if candidate.predicate ≠ knows then return false
      contains tx { subject := .named o, predicate := knows, object := .named s, graph := candidate.graph }
  | _, _ => return false

/-- What `entailed_quads` makes of a quad. -/
def flip (q : Quad) : Option Quad :=
  match q.subject, q.object with
  | .named s, .named o => some { subject := .named o, predicate := q.predicate, object := .named s, graph := q.graph }
  | _, _ => none

/-- `entailed_quads`. Without a transaction it yields the error only; quads that cannot be read count as none. -/
def entailedQuads : Client B (List (Except StorageError Quad)) := do
  match B.beginRead (← get) with
  | .error e => return [.error e]
  | .ok tx =>
      let asserted := (B.quadsForPattern (← get) tx none (some knows) none none).mapM id
      return ((asserted.toOption.getD []).filterMap flip).map .ok

theorem flip_comm {q r : Quad} : flip q = some r ↔ flip r = some q := by
  obtain ⟨s, p, o, g⟩ := q
  obtain ⟨s', p', o', g'⟩ := r
  cases s <;> cases o <;> cases s' <;> cases o' <;> simp [flip, eq_comm, and_left_comm]

section
variable (K : B.PlainSet fun _ => True) {s : B.Store} {S : Finset Quad}

include K

theorem entails_succeeds (h : K.holds s S) (c : Quad) : Succeeds (entails (B := B) c) s fun b s' =>
    (b = true ↔ c ∈ S ∨ ∃ q ∈ S, q.predicate = knows ∧ flip q = some c) ∧ s' = s := by
  refine (beginRead_succeeds K h).next fun tx htx => (contains_succeeds K (.inr htx) trivial).next fun b hb => ?_
  subst hb
  by_cases hc : c ∈ S
  · simp only [hc, decide_true, if_true]
    exact .ret ⟨by simp, rfl⟩
  · simp only [hc, decide_false, Bool.false_eq_true, if_false, false_or, flip_comm (r := c)]
    obtain ⟨sub, p, o, g⟩ := c
    cases sub with
    | blank b => exact .ret ⟨by simp [flip], rfl⟩
    | named a =>
        cases o with
        | blank b => exact .ret ⟨by simp [flip], rfl⟩
        | literal l => exact .ret ⟨by simp [flip], rfl⟩
        | named b =>
            by_cases hp : p = knows
            · subst hp
              refine (contains_succeeds K (.inr htx) trivial).mono fun b s' hb => ⟨?_, hb.2⟩
              simp [hb.1, flip]
            · simp only [ne_eq, hp, not_false_eq_true, if_true]
              exact .ret ⟨by simp [flip, hp], rfl⟩

theorem entailedQuads_succeeds (h : K.holds s S) : Succeeds (entailedQuads (B := B)) s fun listed s' =>
    (∃ qs : List Quad, listed = qs.map .ok ∧ ∀ c, c ∈ qs ↔ ∃ q ∈ S, q.predicate = knows ∧ flip q = some c) ∧ s' = s := by
  obtain ⟨tx, hbegin, htx⟩ := K.beginRead h
  obtain ⟨qs, hqs, -, hmem⟩ := K.collect none (some knows) none none (.inr htx) fun l hl => by cases hl
  refine .read ?_
  simp only [hbegin]
  refine .read (.ret ⟨⟨_, rfl, fun c => ?_⟩, rfl⟩)
  rw [hqs]
  simp [hmem, matchesPattern, Except.toOption, and_assoc]

end

end SymmetricKnows

namespace SymmetricClosure

instance (S : Finset Quad) (a b : NamedNode) : Decidable (Shown S a b) := inferInstanceAs (Decidable (_ ∨ _))

theorem exists_flip {S : Finset Quad} {a b : NamedNode} {g : NamedOrDefault} :
    (∃ q ∈ S, q.predicate = knows ∧ SymmetricKnows.flip q = some (knowsQuad a b g)) ↔ knowsQuad b a g ∈ S := by
  simp only [SymmetricKnows.flip_comm (r := knowsQuad a b g)]
  simp [SymmetricKnows.flip, knowsQuad]

/-- A store that is materialized and then updated, with the reasoner told of every update, shows exactly what a fresh
materialization of the asserted quads shows, and what the backward chainer answers over them. Nothing is left to
materialize, and dematerializing gives the asserted quads back. -/
theorem incremental_agrees (K : B.PlainSet fun _ => True) {s : B.Store} {S : Finset Quad} (h : K.holds s S)
    (hbase : ∀ q ∈ S, q.graph ≠ inferred) (us : List Update) (hus : ∀ u ∈ us, u.Allowed) :
    let A := us.foldl Update.base S
    ∃ s' S', (maintain us).run.run s = (.ok (), s') ∧ K.holds s' S' ∧ asserted S' = A ∧
      (∀ q ∈ S', q.graph = inferred → ∃ a b, q = knowsQuad a b inferred) ∧
      (∀ t, K.holds t A → (∃ stats t' T, materialize.run.run t = (.ok stats, t') ∧ K.holds t' T ∧
          ∀ a b, Shown S' a b ↔ Shown T a b) ∧
        (∃ listed : List Quad, SymmetricKnows.entailedQuads.run.run t = (.ok (listed.map .ok), t) ∧
          ∀ a b, Shown S' a b ↔ knowsQuad a b .default ∈ A ∨ knowsQuad a b .default ∈ listed) ∧
        ∀ a b, (SymmetricKnows.entails (knowsQuad a b .default)).run.run t = (.ok (decide (Shown S' a b)), t)) ∧
      (∃ stats s'', materialize.run.run s' = (.ok stats, s'') ∧ K.holds s'' S' ∧ stats.quadsAdded = 0) ∧
      ∃ s'', dematerialize.run.run s' = (.ok (), s'') ∧ K.holds s'' A := by
  intro A
  obtain ⟨_, s', hrun, S', hS', hcurrent, hasserted⟩ := (maintain_succeeds K hus h hbase).returns
  have hA : asserted S' = A := hasserted
  have hfree : ∀ q ∈ A, q.graph ≠ inferred := fun q hq => (Finset.mem_filter.mp (hA.symm ▸ hq : q ∈ asserted S')).2
  have hshown : ∀ a b, Shown S' a b ↔ knowsQuad a b .default ∈ A ∨ knowsQuad b a .default ∈ A := fun a b => by
    rw [hcurrent.shown, hA]
  refine ⟨s', S', hrun, hS', hA, fun q hq hgraph => ?_, fun t ht => ⟨?_, ?_, fun a b => ?_⟩, ?_, ?_⟩
  · obtain ⟨a, b, rfl, -⟩ := hcurrent.derived q hq hgraph
    exact ⟨b, a, rfl⟩
  · obtain ⟨stats, t', hmat, T, hT, hcurrent', hA'⟩ := (materialize_current K ht hfree).returns
    refine ⟨stats, t', T, hmat, hT, fun a b => ?_⟩
    rw [hshown, hcurrent'.shown, hA', asserted, Finset.filter_true_of_mem hfree]
  · obtain ⟨_, t', hlisted, ⟨listed, rfl, hmem⟩, rfl⟩ := (SymmetricKnows.entailedQuads_succeeds K ht).returns
    exact ⟨listed, hlisted, fun a b => by rw [hshown, hmem, exists_flip]⟩
  · obtain ⟨answer, t', hanswer, hiff, rfl⟩ := (SymmetricKnows.entails_succeeds K ht (knowsQuad a b .default)).returns
    have heq : answer = decide (Shown S' a b) := by
      rw [Bool.eq_iff_iff, decide_eq_true_iff, hiff, exists_flip, hshown]
    rw [hanswer, heq]
  · obtain ⟨stats, s'', hmat, qs, hqs, hT, hcount⟩ := (materialize_succeeds K hS').returns
    rw [hcurrent.foldl fun q hq => (hqs q).mp hq] at hT hcount
    exact ⟨stats, s'', hmat, hT, by omega⟩
  · obtain ⟨_, s'', hdemat, hT⟩ := (dematerialize_succeeds K hS').returns
    exact ⟨s'', hdemat, hA ▸ hT⟩

/-- Both directions asserted, then one of them removed: the other one is inferred to hold both ways. -/
theorem incremental_agrees_removed :
    let ab := knowsQuad (ex "alice") (ex "bob") .default
    let ba := knowsQuad (ex "bob") (ex "alice") .default
    let K := Naive.plainSet (fun _ => True) fun _ _ => trivial
    let store : Naive.MemStore := ⟨[ab]⟩
    ∃ s' S', (maintain (B := Naive.memStorage) [.insert [ba], .remove [ab]]).run.run store = (.ok (), s') ∧ K.holds s' S' ∧
      asserted S' = {ba} := by
  intro ab ba K store
  have hne : ab ≠ ba := fun heq => by
    have halice := ex_injective (knowsQuad_inj.mp heq).1
    simp at halice
  have hbase : ∀ q ∈ ({ab} : Finset Quad), q.graph ≠ inferred := by simp [ab, knowsQuad, inferred]
  have hus : ∀ u ∈ [Update.insert [ba], .remove [ab]], u.Allowed := by simp [Update.Allowed, ba, knowsQuad, inferred]
  have hholds : K.holds store {ab} := ⟨by simp [store], by simp [store], fun _ _ => trivial⟩
  obtain ⟨s', S', hrun, hS', hA, -⟩ := incremental_agrees K hholds hbase _ hus
  refine ⟨s', S', hrun, hS', ?_⟩
  rw [hA]
  ext q
  simp only [List.foldl_cons, List.foldl_nil, Update.base, List.toFinset_cons, List.toFinset_nil, insert_empty_eq,
    Finset.mem_sdiff, Finset.mem_union, Finset.mem_singleton]
  constructor
  · rintro ⟨rfl | rfl, h⟩
    · exact (h rfl).elim
    · rfl
  · rintro rfl
    exact ⟨Or.inr rfl, hne.symm⟩

end SymmetricClosure

end Semanticore.Core
