import Semanticore.Core.Subsumption

/-!
# Validation

The reports of `semanticore-core/src/shacl.rs` and `MinCountOne`, a validator that checks "every instance of `?c` has at least
one `?p`" for the shapes with `?shape sh:targetClass ?c` and `?shape sh:path ?p`.
-/

namespace Semanticore.Core

inductive PropertyPath
  | predicate (p : NamedNode)
  | inverse (path : PropertyPath)
  | sequence (paths : List PropertyPath)
  | alternative (paths : List PropertyPath)
  | zeroOrMore (path : PropertyPath)
  | oneOrMore (path : PropertyPath)
  | zeroOrOne (path : PropertyPath)

inductive Severity
  | violation
  | warning
  | info

structure ValidationResult where
  focusNode : Term
  resultSeverity : Severity
  sourceConstraintComponent : NamedNode
  resultPath : Option PropertyPath
  value : Option Term
  sourceShape : Option NamedOrBlankNode
  resultMessage : Option String
  detail : List ValidationResult

structure ShaclValidationReport where
  conforms : Bool
  results : List ValidationResult

def ShaclValidationReport.fromResults (results : List ValidationResult) : ShaclValidationReport :=
  { conforms := results.isEmpty, results }

structure NodeValidationResult where
  focus : NamedOrBlankNode
  conforms : Bool
  results : List ValidationResult

namespace MinCountOne
open Subsumption (rdfType)

def sh (name : String) : NamedNode := ⟨"http://www.w3.org/ns/shacl#" ++ name⟩

variable {B : Storage}

def objects (st : B.Store) (tx : B.Tx) (s : NamedOrBlankNode) (p : NamedNode) : Except StorageError (List Term) :=
  (B.quadsForPattern st tx (some s) (some p) none none).mapM (·.map (·.object))

/-- The result for a focus node without a value. -/
def violation (shape focus : NamedOrBlankNode) (path : NamedNode) : ValidationResult :=
  { focusNode := focus.toTerm, resultSeverity := .violation,
    sourceConstraintComponent := sh "MinCountConstraintComponent", resultPath := some (.predicate path), value := none,
    sourceShape := some shape, resultMessage := some "missing required value", detail := [] }

section
variable (data : B.Store) (tx : B.Tx) (only : Option NamedOrBlankNode) (shape : NamedOrBlankNode)

/-- The round of `check` for a member of the target class. -/
def checkMember (path : NamedNode) (results : List ValidationResult) (member : Except StorageError Quad) :
    Except StorageError (List ValidationResult) := do
  let focus := (← member).subject
  if only.any (· ≠ focus) then return results
  if (← objects data tx focus path).isEmpty then return results ++ [violation shape focus path]
  return results

/-- The round for a path of the shape. -/
def checkPath (target : Term) (results : List ValidationResult) : Term → Except StorageError (List ValidationResult)
  | .named path => (B.quadsForPattern data tx none (some rdfType) (some target) none).foldlM
      (checkMember data tx only shape path) results
  | _ => return results

end

/-- The round for a target of the shapes graph. -/
def checkTarget (data shapes : B.Store) (dataTx shapesTx : B.Tx) (only : Option NamedOrBlankNode)
    (results : List ValidationResult) (target : Except StorageError Quad) : Except StorageError (List ValidationResult) := do
  let target ← target
  (← objects shapes shapesTx target.subject (sh "path")).foldlM
    (checkPath data dataTx only target.subject target.object) results

def check (data shapes : B.Store) (only : Option NamedOrBlankNode) : Except StorageError (List ValidationResult) := do
  let dataTx ← B.beginRead data
  let shapesTx ← B.beginRead shapes
  (B.quadsForPattern shapes shapesTx none (some (sh "targetClass")) none none).foldlM
    (checkTarget data shapes dataTx shapesTx only) []

def validate (data shapes : B.Store) : Except StorageError ShaclValidationReport := do
  return .fromResults (← check data shapes none)

def validateNode (data shapes : B.Store) (focus : NamedOrBlankNode) : Except StorageError NodeValidationResult := do
  let results ← check data shapes (some focus)
  return { focus, conforms := results.isEmpty, results }

/-! ## Lists without errors -/

theorem foldlM_append {α β : Type} {f : List β → α → Except StorageError (List β)} {g : α → List β} {l : List α}
    (h : ∀ x ∈ l, ∀ acc, f acc x = .ok (acc ++ g x)) (acc : List β) : l.foldlM f acc = .ok (acc ++ l.flatMap g) := by
  induction l generalizing acc with
  | nil => simp [pure, Except.pure]
  | cons x l ih =>
      obtain ⟨hx, hl⟩ := List.forall_mem_cons.mp h
      rw [List.foldlM_cons, hx, List.flatMap_cons, ← List.append_assoc]
      exact ih hl _

/-- The quads of a list without errors. -/
def listed (l : List (Except StorageError Quad)) : List Quad := l.filterMap Except.toOption

theorem listed_map_ok (qs : List Quad) : listed (qs.map .ok) = qs := by
  induction qs with
  | nil => rfl
  | cons q qs ih => simpa [listed, Except.toOption] using ih

/-! ## What is found -/

section
variable (data shapes : B.Store) (dataTx shapesTx : B.Tx) (only : Option NamedOrBlankNode)

def memberResults (shape : NamedOrBlankNode) (path : NamedNode) (member : Quad) : List ValidationResult :=
  if only.any (· ≠ member.subject) then []
  else if (listed (B.quadsForPattern data dataTx (some member.subject) (some path) none none)).isEmpty then
    [violation shape member.subject path]
  else []

def pathResults (shape : NamedOrBlankNode) (target : Term) : Term → List ValidationResult
  | .named path => (listed (B.quadsForPattern data dataTx none (some rdfType) (some target) none)).flatMap
      (memberResults data dataTx only shape path)
  | _ => []

def targetResults (target : Quad) : List ValidationResult :=
  (listed (B.quadsForPattern shapes shapesTx (some target.subject) (some (sh "path")) none none)).flatMap
    fun q => pathResults data dataTx only target.subject target.object q.object

/-- The results of `check` when no call on the stores fails. -/
def allResults : List ValidationResult :=
  (listed (B.quadsForPattern shapes shapesTx none (some (sh "targetClass")) none none)).flatMap
    (targetResults data shapes dataTx shapesTx only)

end

/-- A member of the target class of a shape has no value on a path of the shape. -/
def Missing (S D : Finset Quad) (shape : NamedOrBlankNode) (path : NamedNode) (focus : NamedOrBlankNode) : Prop :=
  ∃ c, (∃ g, ⟨shape, sh "targetClass", c, g⟩ ∈ S) ∧ (∃ g, ⟨shape, sh "path", .named path, g⟩ ∈ S) ∧
    (∃ g, ⟨focus, rdfType, c, g⟩ ∈ D) ∧ ∀ o g, ⟨focus, path, o, g⟩ ∉ D

theorem toTerm_injective : Function.Injective NamedOrBlankNode.toTerm := by
  intro a b h
  cases a <;> cases b <;> simp_all [NamedOrBlankNode.toTerm]

variable {data shapes : B.Store} {dataTx shapesTx : B.Tx} {only : Option NamedOrBlankNode} {S D : Finset Quad}
  {shape focus : NamedOrBlankNode} {path : NamedNode} {r : ValidationResult}

/-- To check one node is to keep the results about it. -/
theorem memberResults_some (member : Quad) : memberResults data dataTx (some focus) shape path member =
    (memberResults data dataTx none shape path member).filter (·.focusNode = focus.toTerm) := by
  have hfocus : (violation shape member.subject path).focusNode = focus.toTerm ↔ focus = member.subject :=
    toTerm_injective.eq_iff.trans eq_comm
  unfold memberResults
  by_cases heq : focus = member.subject
  · simp only [Option.any_some, heq, ne_eq, not_true_eq_false, decide_false, Bool.false_eq_true, if_false, Option.any_none]
    split
    · simp [violation]
    · rfl
  · simp only [Option.any_some, heq, ne_eq, not_false_eq_true, decide_true, if_true, Option.any_none, Bool.false_eq_true,
      if_false]
    split
    · simp [hfocus, heq]
    · rfl

theorem allResults_some (focus : NamedOrBlankNode) : allResults data shapes dataTx shapesTx (some focus) =
    (allResults data shapes dataTx shapesTx none).filter (·.focusNode = focus.toTerm) := by
  have hpath : ∀ shape target t, pathResults data dataTx (some focus) shape target t =
      (pathResults data dataTx none shape target t).filter (·.focusNode = focus.toTerm) := by
    intro shape target t
    cases t with
    | named path => simp only [pathResults, List.filter_flatMap, ← memberResults_some]
    | blank b => rfl
    | literal l => rfl
  have htarget : ∀ target, targetResults data shapes dataTx shapesTx (some focus) target =
      (targetResults data shapes dataTx shapesTx none target).filter (·.focusNode = focus.toTerm) := fun target => by
    simp only [targetResults, List.filter_flatMap, hpath]
  simp only [allResults, List.filter_flatMap, ← htarget]

section
variable {Fit : Quad → Prop} (K : B.PlainSet Fit) {s : B.Store} {tx : B.Tx} {T : Finset Quad}

include K

theorem listed_quadsForPattern {sub : Option NamedOrBlankNode} {p : Option NamedNode} {o : Option Term}
    {g : Option NamedOrDefault} (h : K.reads s tx T) (ho : BuiltObject o) :
    B.quadsForPattern s tx sub p o g = (listed (B.quadsForPattern s tx sub p o g)).map .ok ∧
      ∀ q, q ∈ listed (B.quadsForPattern s tx sub p o g) ↔ q ∈ T ∧ matchesPattern q sub p o g := by
  have hfound : ∃ qs : List Quad, B.quadsForPattern s tx sub p o g = qs.map .ok ∧ qs.Nodup ∧
      ∀ q, q ∈ qs ↔ q ∈ T ∧ matchesPattern q sub p o g := K.quadsForPattern (.inr h) ho
  obtain ⟨qs, hqs, -, hmem⟩ := hfound
  rw [hqs, listed_map_ok]
  exact ⟨rfl, hmem⟩

theorem objects_eq (h : K.reads s tx T) (sub : NamedOrBlankNode) (p : NamedNode) : objects s tx sub p =
    .ok ((listed (B.quadsForPattern s tx (some sub) (some p) none none)).map (·.object)) := by
  rw [objects, (listed_quadsForPattern K h fun l hl => by cases hl).1, listed_map_ok]
  exact Lib.mapM_map_ok fun _ => rfl

theorem check_eq (hbuilt : ∀ q, Fit q → q.Built) (hd : K.holds data D) (hs : K.holds shapes S) :
    ∃ dataTx shapesTx, K.reads data dataTx D ∧ K.reads shapes shapesTx S ∧
      ∀ only, check data shapes only = .ok (allResults data shapes dataTx shapesTx only) := by
  obtain ⟨dataTx, hdata, hreads⟩ := K.beginRead hd
  obtain ⟨shapesTx, hshapes, hreads'⟩ := K.beginRead hs
  refine ⟨dataTx, shapesTx, hreads, hreads', fun only => ?_⟩
  have hmember : ∀ shape path member acc, checkMember data dataTx only shape path acc (.ok member) =
      .ok (acc ++ memberResults data dataTx only shape path member) := by
    intro shape path member acc
    simp only [checkMember, memberResults, objects_eq K hreads, bind, Except.bind, pure, Except.pure, List.isEmpty_map]
    split
    · simp
    · split <;> simp
  have hpath : ∀ shape target, BuiltObject (some target) → ∀ t acc, checkPath data dataTx only shape target acc t =
      .ok (acc ++ pathResults data dataTx only shape target t) := by
    intro shape target ho t acc
    cases t with
    | named path =>
        rw [checkPath, (listed_quadsForPattern K hreads ho).1, List.foldlM_map]
        exact foldlM_append (fun member _ acc => hmember shape path member acc) acc
    | blank b => simp [checkPath, pathResults, pure, Except.pure]
    | literal l => simp [checkPath, pathResults, pure, Except.pure]
  have htarget : ∀ target ∈ S, ∀ acc, checkTarget data shapes dataTx shapesTx only acc (.ok target) =
      .ok (acc ++ targetResults data shapes dataTx shapesTx only target) := by
    intro target hS acc
    have ho : BuiltObject (some target.object) := fun l hl => hbuilt _ (K.fits hs hS) l (Option.some.inj hl)
    rw [checkTarget]
    simp only [objects_eq K hreads', bind, Except.bind]
    rw [List.foldlM_map]
    exact foldlM_append (fun q _ acc => hpath target.subject target.object ho q.object acc) acc
  have hok : B.quadsForPattern shapes shapesTx none (some (sh "targetClass")) none none =
      (listed (B.quadsForPattern shapes shapesTx none (some (sh "targetClass")) none none)).map .ok :=
    (listed_quadsForPattern K hreads' fun l hl => by cases hl).1
  have hmem : ∀ target ∈ listed (B.quadsForPattern shapes shapesTx none (some (sh "targetClass")) none none), target ∈ S :=
    fun target ht => (((listed_quadsForPattern K hreads' fun l hl => by cases hl).2 target).mp ht).1
  rw [check, hdata, hshapes]
  simp only [bind, Except.bind]
  rw [hok, List.foldlM_map]
  exact foldlM_append (fun target ht acc => htarget target (hmem target ht) acc) []

theorem mem_memberResults (h : K.reads data dataTx D) {member : Quad} :
    r ∈ memberResults data dataTx none shape path member ↔
      (∀ o g, ⟨member.subject, path, o, g⟩ ∉ D) ∧ r = violation shape member.subject path := by
  obtain ⟨-, hmem⟩ : _ ∧ ∀ q, q ∈ listed (B.quadsForPattern data dataTx (some member.subject) (some path) none none) ↔ _ :=
    listed_quadsForPattern K h fun l hl => by cases hl
  have hempty : (listed (B.quadsForPattern data dataTx (some member.subject) (some path) none none)).isEmpty = true ↔
      ∀ o g, ⟨member.subject, path, o, g⟩ ∉ D := by
    rw [List.isEmpty_iff, List.eq_nil_iff_forall_not_mem]
    constructor
    · intro hnone o g hD
      exact hnone _ ((hmem _).mpr ⟨hD, by simp [matchesPattern]⟩)
    · rintro hnone ⟨s, p, o, g⟩ hq
      obtain ⟨hD, hmatch⟩ := (hmem _).mp hq
      simp only [matchesPattern, Option.all_some, Option.all_none, Bool.and_true, Bool.and_eq_true, decide_eq_true_eq] at hmatch
      obtain ⟨rfl, rfl⟩ := hmatch
      exact hnone o g hD
  rw [← hempty]
  simp only [memberResults, Option.any_none, Bool.false_eq_true, if_false]
  split
  · rename_i hyes
    simp [hyes]
  · rename_i hno
    simp [hno]

theorem mem_pathResults (h : K.reads data dataTx D) {c t : Term} (ho : BuiltObject (some c)) :
    r ∈ pathResults data dataTx none shape c t ↔ ∃ path, t = .named path ∧ ∃ focus g, ⟨focus, rdfType, c, g⟩ ∈ D ∧
      (∀ o g, ⟨focus, path, o, g⟩ ∉ D) ∧ r = violation shape focus path := by
  cases t with
  | named path =>
      simp only [pathResults, List.mem_flatMap, mem_memberResults K h, (listed_quadsForPattern K h ho).2]
      constructor
      · rintro ⟨⟨s, p, o, g⟩, ⟨hD, hmatch⟩, hnone, hr⟩
        simp only [matchesPattern, Option.all_some, Option.all_none, Bool.true_and, Bool.and_true, Bool.and_eq_true,
          decide_eq_true_eq] at hmatch
        obtain ⟨rfl, rfl⟩ := hmatch
        exact ⟨path, rfl, s, g, hD, hnone, hr⟩
      · rintro ⟨path', hpath, focus, g, hD, hnone, hr⟩
        cases hpath
        exact ⟨_, ⟨hD, by simp [matchesPattern]⟩, hnone, hr⟩
  | blank b => simp [pathResults]
  | literal l => simp [pathResults]

theorem mem_allResults (hbuilt : ∀ q ∈ S, q.Built) (hd : K.reads data dataTx D) (hs : K.reads shapes shapesTx S) :
    r ∈ allResults data shapes dataTx shapesTx none ↔
      ∃ shape path focus, Missing S D shape path focus ∧ r = violation shape focus path := by
  have hclass : ∀ q, q ∈ listed (B.quadsForPattern shapes shapesTx none (some (sh "targetClass")) none none) ↔
      q ∈ S ∧ q.predicate = sh "targetClass" := fun q =>
    ((listed_quadsForPattern K hs fun l hl => by cases hl).2 q).trans (by simp [matchesPattern])
  have hpath : ∀ shape q, q ∈ listed (B.quadsForPattern shapes shapesTx (some shape) (some (sh "path")) none none) ↔
      q ∈ S ∧ q.subject = shape ∧ q.predicate = sh "path" := fun shape q =>
    ((listed_quadsForPattern K hs fun l hl => by cases hl).2 q).trans (by simp [matchesPattern])
  simp only [allResults, targetResults, List.mem_flatMap, hclass, hpath]
  constructor
  · rintro ⟨⟨_, _, c, g⟩, ⟨htarget, rfl⟩, ⟨shape, _, t, g'⟩, ⟨hpath, rfl, rfl⟩, hr⟩
    obtain ⟨path, rfl, focus, g'', htype, hnone, rfl⟩ :=
      (mem_pathResults K hd fun l hl => hbuilt _ htarget l (Option.some.inj hl)).mp hr
    exact ⟨shape, path, focus, ⟨c, ⟨g, htarget⟩, ⟨g', hpath⟩, ⟨g'', htype⟩, hnone⟩, rfl⟩
  · rintro ⟨shape, path, focus, ⟨c, ⟨g, htarget⟩, ⟨g', hpath⟩, ⟨g'', htype⟩, hnone⟩, rfl⟩
    refine ⟨_, ⟨htarget, rfl⟩, _, ⟨hpath, rfl, rfl⟩, ?_⟩
    exact (mem_pathResults K hd fun l hl => hbuilt _ htarget l (Option.some.inj hl)).mpr
      ⟨path, rfl, focus, g'', htype, hnone, rfl⟩

end

/-- The report has one result for each way in which a member of a target class misses a value, and no others, so that it conforms
exactly if no value is missing. Validating one node keeps the results about it, in their order. -/
theorem validation_exact {Fit : Quad → Prop} (K : B.PlainSet Fit) (hbuilt : ∀ q, Fit q → q.Built) (hd : K.holds data D)
    (hs : K.holds shapes S) :
    ∃ report, validate data shapes = .ok report ∧
      (∀ r, r ∈ report.results ↔ ∃ shape path focus, Missing S D shape path focus ∧ r = violation shape focus path) ∧
      (report.conforms = true ↔ ∀ shape path focus, ¬ Missing S D shape path focus) ∧
      ∀ focus, ∃ node, validateNode data shapes focus = .ok node ∧ node.focus = focus ∧
        node.results = report.results.filter (·.focusNode = focus.toTerm) ∧
        (node.conforms = true ↔ ∀ shape path, ¬ Missing S D shape path focus) := by
  obtain ⟨dataTx, shapesTx, hdata, hshapes, hcheck⟩ := check_eq K hbuilt hd hs
  have hmem : ∀ r, r ∈ allResults data shapes dataTx shapesTx none ↔
      ∃ shape path focus, Missing S D shape path focus ∧ r = violation shape focus path := fun r =>
    mem_allResults K (fun q hq => hbuilt q (K.fits hs hq)) hdata hshapes
  refine ⟨.fromResults (allResults data shapes dataTx shapesTx none), ?_, hmem, ?_, fun focus => ?_⟩
  · rw [validate, hcheck]
    rfl
  · rw [ShaclValidationReport.fromResults, List.isEmpty_iff, List.eq_nil_iff_forall_not_mem]
    simp only [hmem]
    constructor
    · exact fun hnone shape path focus hmissing => hnone _ ⟨shape, path, focus, hmissing, rfl⟩
    · rintro hnone _ ⟨shape, path, focus, hmissing, -⟩
      exact hnone shape path focus hmissing
  · let results := allResults data shapes dataTx shapesTx (some focus)
    refine ⟨⟨focus, results.isEmpty, results⟩, ?_, rfl, allResults_some focus, ?_⟩
    · rw [validateNode, hcheck]
      rfl
    · rw [List.isEmpty_iff, List.eq_nil_iff_forall_not_mem, show results = _ from allResults_some focus]
      simp only [List.mem_filter, hmem, decide_eq_true_eq]
      constructor
      · exact fun hnone shape path hmissing => hnone _ ⟨⟨shape, path, focus, hmissing, rfl⟩, rfl⟩
      · rintro hnone _ ⟨⟨shape, path, focus', hmissing, rfl⟩, hfocus⟩
        cases toTerm_injective hfocus
        exact hnone shape path hmissing

/-- A person without a name. -/
theorem validation_exact_missing :
    let shapes : Naive.MemStore := ⟨[.triple (.named (ex "PersonShape")) (sh "targetClass") (.named (ex "Person")),
      .triple (.named (ex "PersonShape")) (sh "path") (.named (ex "name"))]⟩
    let data : Naive.MemStore := ⟨[.triple (.named (ex "bob")) rdfType (.named (ex "Person"))]⟩
    ∃ report, validate (B := Naive.memStorage) data shapes = .ok report ∧ report.conforms = false ∧
      violation (.named (ex "PersonShape")) (.named (ex "bob")) (ex "name") ∈ report.results := by
  intro shapes data
  let K := Naive.plainSet Quad.Built fun _ h => h
  have hne : sh "targetClass" ≠ sh "path" := fun h =>
    absurd ((String.append_right_inj _).mp (congrArg NamedNode.iri h)) (by decide)
  have hd : K.holds data data.quads.toFinset := ⟨by simp [data], rfl, by simp [data, Quad.Built, Quad.triple]⟩
  have hs : K.holds shapes shapes.quads.toFinset :=
    ⟨by simp [shapes, Quad.triple, hne], rfl, by simp [shapes, Quad.Built, Quad.triple]⟩
  obtain ⟨report, hvalidate, hresults, hconforms, -⟩ := validation_exact K (fun _ h => h) hd hs
  have hmissing : Missing shapes.quads.toFinset data.quads.toFinset (.named (ex "PersonShape")) (ex "name")
      (.named (ex "bob")) := by
    have hname : ex "name" ≠ rdfType := by decide
    refine ⟨.named (ex "Person"), ⟨.default, ?_⟩, ⟨.default, ?_⟩, ⟨.default, ?_⟩, fun o g => ?_⟩
    · simp [shapes, Quad.triple]
    · simp [shapes, Quad.triple]
    · simp [data, Quad.triple]
    · simp [data, Quad.triple, hname]
  refine ⟨report, hvalidate, ?_, (hresults _).mpr ⟨_, _, _, hmissing, rfl⟩⟩
  exact Bool.eq_false_iff.mpr fun h => hconforms.mp h _ _ _ hmissing

end MinCountOne

end Semanticore.Core
