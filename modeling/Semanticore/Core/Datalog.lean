import Semanticore.Core.Symmetric

/-!
# Datalog

The programs and results of `semanticore-core/src/datalog.rs`, and `OneStep`, an engine for rules whose body is one positive
binary atom. It reads a quad as the fact `predicate(subject, object)`.
-/

namespace Semanticore.Core
open Semanticore.Lib Client

inductive DatalogTerm
  | var (name : String)
  | const (t : Term)
deriving DecidableEq

structure Atom where
  predicate : NamedNode
  terms : List DatalogTerm

inductive BodyLiteral
  | positive (a : Atom)
  | negative (a : Atom)

structure Rule where
  head : Atom
  body : List BodyLiteral

structure DatalogProgram where
  rules : List Rule

/-- The derived tuples of each predicate. -/
structure DatalogResult where
  relations : Std.TreeMap NamedNode (List (List Term))

namespace DatalogResult

def new : DatalogResult := ⟨∅⟩

def addFact (r : DatalogResult) (predicate : NamedNode) (tuple : List Term) : DatalogResult :=
  ⟨r.relations.insert predicate (r.relations.getD predicate [] ++ [tuple])⟩

def relation (r : DatalogResult) (predicate : NamedNode) : Option (List (List Term)) := r.relations[predicate]?

/-- The tuples of a predicate; a predicate without any has no relation. -/
def tuples (r : DatalogResult) (predicate : NamedNode) : List (List Term) := (r.relation predicate).getD []

end DatalogResult

/-! ## The engine -/

/-- What `load_program` asks of a rule. -/
def Rule.supported (r : Rule) : Bool :=
  match r.body with
  | [.positive a] => a.terms.length = 2
  | _ => false

/-- The arguments of the fact that a quad is read as. -/
def row (q : Quad) : List Term := [q.subject.toTerm, q.object]

def DatalogProgram.Accepted (program : DatalogProgram) : Prop := ∀ r ∈ program.rules, r.supported = true

instance (program : DatalogProgram) : Decidable program.Accepted := inferInstanceAs (Decidable (∀ _ ∈ _, _))

/-- `OneStep`: the empty program, or one that `load_program` accepted. -/
structure OneStep where
  program : DatalogProgram
  accepted : program.Accepted

namespace OneStep

/-- `OneStep::default`. -/
def new : OneStep := ⟨⟨[]⟩, fun _ h => absurd h List.not_mem_nil⟩

def loadProgram (e : OneStep) (program : DatalogProgram) : Except StorageError Unit × OneStep :=
  if h : program.Accepted then (.ok (), ⟨program, h⟩)
  else (.error (.backend "unsupported rule shape"), e)

/-- `lookup`: body variables are bound to the subject and the object. -/
def lookup (body : Atom) (q : Quad) : DatalogTerm → Option Term
  | .const c => some c
  | .var v => (body.terms.findIdx? (· = .var v)).bind fun i => (row q)[i]?

def constsMatch (body : Atom) (q : Quad) : Bool :=
  (body.terms.zip (row q)).all fun x => match x.1 with
    | .const c => c = x.2
    | .var _ => true

/-- The tuple that a rule adds for a quad. -/
def tuple (rule : Rule) (body : Atom) (q : Quad) : Option (List Term) :=
  if constsMatch body q then rule.head.terms.mapM (lookup body q) else none

def addTuple (rule : Rule) (body : Atom) (result : DatalogResult) (q : Quad) : DatalogResult :=
  match tuple rule body q with
  | some tuple => result.addFact rule.head.predicate tuple
  | none => result

def evaluate {B : Storage} (e : OneStep) : Client B DatalogResult := do
  let tx ← beginRead
  e.program.rules.foldlM (fun result rule => do
    match rule.body with
    | [.positive body] =>
        let quads ← quadsForPattern tx none (some body.predicate) none none
        return quads.foldl (addTuple rule body) result
    | _ => return result) .new

end OneStep

/-! ## Consequences

What rules derive in one step, by substitution of their variables. -/

def DatalogTerm.subst (σ : String → Term) : DatalogTerm → Term
  | .var v => σ v
  | .const t => t

/-- The facts that the quads of a store are read as. -/
def Fact (S : Finset Quad) (a : Atom) (σ : String → Term) : Prop :=
  ∃ q ∈ S, q.predicate = a.predicate ∧ a.terms.map (·.subst σ) = row q

/-- A variable of the head occurs in the body. -/
def Rule.Safe (r : Rule) : Prop := ∀ v, .var v ∈ r.head.terms → ∃ a, .positive a ∈ r.body ∧ .var v ∈ a.terms

/-- No atom of the body has a variable twice. -/
def Rule.Linear (r : Rule) : Prop := ∀ a, .positive a ∈ r.body → a.terms.Pairwise fun t u => ∀ v, t = .var v → u ≠ .var v

def Rule.Infers (r : Rule) (S : Finset Quad) (p : NamedNode) (tuple : List Term) : Prop :=
  r.Safe ∧ ∃ σ, (∀ a, .positive a ∈ r.body → Fact S a σ) ∧ r.head.predicate = p ∧ r.head.terms.map (·.subst σ) = tuple

namespace DatalogResult

variable {r : DatalogResult} {p p' : NamedNode} {t : List Term}

theorem tuples_new : new.tuples p = [] := by
  simp [tuples, relation, new]

theorem tuples_addFact : (r.addFact p t).tuples p' = if p = p' then r.tuples p' ++ [t] else r.tuples p' := by
  simp only [tuples, relation, addFact, Std.TreeMap.getElem?_insert, Std.LawfulEqOrd.compare_eq_iff_eq]
  by_cases hp : p = p'
  · subst hp
    simp [Std.TreeMap.getD_eq_getD_getElem?]
  · simp [hp]

end DatalogResult

namespace OneStep

variable {B : Storage} {S : Finset Quad} {rule : Rule} {a : Atom} {q : Quad} {p : NamedNode} {t : List Term}

theorem exists_body (h : rule.supported = true) : ∃ a, rule.body = [.positive a] ∧ a.terms.length = 2 := by
  obtain ⟨head, body⟩ := rule
  cases body with
  | nil => simp [Rule.supported] at h
  | cons l rest =>
      cases rest with
      | nil => cases l <;> simp_all [Rule.supported]
      | cons l' rest => simp [Rule.supported] at h

theorem mapM_eq_some {f : DatalogTerm → Option Term} {l : List DatalogTerm} :
    l.mapM f = some t ↔ List.Forall₂ (fun x y => f x = some y) l t := by
  induction l generalizing t with
  | nil => cases t <;> simp
  | cons x l ih =>
      rw [List.mapM_cons]
      cases t with
      | nil => cases f x <;> cases l.mapM f <;> simp
      | cons y t =>
          rw [List.forall₂_cons, ← ih]
          cases f x <;> cases l.mapM f <;> simp

/-! ## One quad -/

/-- A substitution that makes the body a fact is what the engine binds. -/
theorem lookup_of_subst {σ : String → Term} (hσ : a.terms.map (·.subst σ) = row q) {x : DatalogTerm}
    (hx : ∀ v, x = .var v → x ∈ a.terms) : lookup a q x = some (x.subst σ) := by
  cases x with
  | const c => rfl
  | var v =>
      cases hfind : a.terms.findIdx? (· = .var v) with
      | none =>
          simp only [List.findIdx?_eq_none_iff, decide_eq_false_iff_not] at hfind
          exact (hfind _ (hx v rfl) rfl).elim
      | some i =>
          obtain ⟨hi, heq, -⟩ := List.findIdx?_eq_some_iff_getElem.mp hfind
          rw [lookup, hfind, Option.bind_some, ← hσ, List.getElem?_map, List.getElem?_eq_getElem hi, of_decide_eq_true heq]
          rfl

theorem constsMatch_of_subst {σ : String → Term} (hσ : a.terms.map (·.subst σ) = row q) : constsMatch a q = true := by
  rw [constsMatch, ← hσ, List.all_eq_true]
  intro x hx
  obtain ⟨i, hi, rfl⟩ := List.mem_iff_getElem.mp hx
  simp only [List.getElem_zip, List.getElem_map]
  split
  · rename_i c hc
    simp [hc, DatalogTerm.subst]
  · rfl

/-- The engine derives whatever follows. -/
theorem tuple_of_subst {σ : String → Term} (hbody : rule.body = [.positive a]) (hsafe : rule.Safe)
    (hσ : a.terms.map (·.subst σ) = row q) : tuple rule a q = some (rule.head.terms.map (·.subst σ)) := by
  rw [tuple, if_pos (constsMatch_of_subst hσ), mapM_eq_some, List.forall₂_map_right_iff, List.forall₂_same]
  intro x hx
  refine lookup_of_subst hσ fun v hv => ?_
  subst hv
  obtain ⟨b, hb, hmem⟩ := hsafe v hx
  rw [hbody, List.mem_singleton] at hb
  cases hb
  exact hmem

/-- What the engine binds the variables of the body to. -/
def bindings (a : Atom) (q : Quad) (v : String) : Term := (lookup a q (.var v)).getD q.object

theorem subst_of_lookup {x : DatalogTerm} {y : Term} (h : lookup a q x = some y) : x.subst (bindings a q) = y := by
  cases x with
  | const c => exact Option.some.inj h
  | var v => simp [DatalogTerm.subst, bindings, h]

theorem mem_of_lookup {v : String} {y : Term} (h : lookup a q (.var v) = some y) : .var v ∈ a.terms := by
  obtain ⟨i, hfind, -⟩ := Option.bind_eq_some_iff.mp h
  obtain ⟨hi, heq, -⟩ := List.findIdx?_eq_some_iff_getElem.mp hfind
  exact of_decide_eq_true heq ▸ List.getElem_mem hi

/-- The bindings make a body without repeated variables the fact that the quad is read as. -/
theorem subst_bindings (hlen : a.terms.length = 2)
    (hlinear : a.terms.Pairwise fun t u => ∀ v, t = .var v → u ≠ .var v) (h : constsMatch a q = true) :
    a.terms.map (·.subst (bindings a q)) = row q := by
  obtain ⟨predicate, terms⟩ := a
  obtain ⟨x, y, rfl⟩ := List.length_eq_two.mp hlen
  have hne : ∀ v, x = .var v → y ≠ .var v := by simpa using hlinear
  have hfirst : x.subst (bindings ⟨predicate, [x, y]⟩ q) = q.subject.toTerm := by
    cases x with
    | const c => simpa [constsMatch, row, DatalogTerm.subst] using (List.all_eq_true.mp h) (.const c, q.subject.toTerm)
    | var v => exact subst_of_lookup (by simp [lookup, row, List.findIdx?_cons])
  have hsecond : y.subst (bindings ⟨predicate, [x, y]⟩ q) = q.object := by
    cases y with
    | const c => simpa [constsMatch, row, DatalogTerm.subst] using (List.all_eq_true.mp h) (.const c, q.object)
    | var v =>
        have hx : x ≠ .var v := fun hx => hne v hx rfl
        exact subst_of_lookup (by simp [lookup, row, List.findIdx?_cons, hx])
  simp [row, hfirst, hsecond]

/-- What the engine derives follows. -/
theorem subst_of_tuple (hbody : rule.body = [.positive a]) (hlen : a.terms.length = 2) (hlinear : rule.Linear)
    (h : tuple rule a q = some t) :
    rule.Safe ∧ a.terms.map (·.subst (bindings a q)) = row q ∧ rule.head.terms.map (·.subst (bindings a q)) = t := by
  rw [tuple] at h
  split at h
  · rename_i hconsts
    have hall := mapM_eq_some.mp h
    refine ⟨fun v hv => ?_, subst_bindings hlen (hlinear a (by simp [hbody])) hconsts, ?_⟩
    · obtain ⟨i, hi, hget⟩ := List.mem_iff_getElem.mp hv
      have hlookup := hall.get hi (hall.length_eq ▸ hi)
      simp only [List.get_eq_getElem, hget] at hlookup
      exact ⟨a, by simp [hbody], mem_of_lookup hlookup⟩
    · rw [← List.forall₂_eq_eq_eq, List.forall₂_map_left_iff]
      exact hall.imp fun x y hxy => subst_of_lookup hxy
  · cases h

/-! ## Runs -/

/-- What a rule adds to the result. -/
def Adds (S : Finset Quad) (rule : Rule) (p : NamedNode) (t : List Term) : Prop :=
  ∃ a, rule.body = [.positive a] ∧ rule.head.predicate = p ∧ ∃ q ∈ S, q.predicate = a.predicate ∧ tuple rule a q = some t

theorem adds_of_infers (hsupported : rule.supported = true) (h : rule.Infers S p t) : Adds S rule p t := by
  obtain ⟨a, hbody, -⟩ := exists_body hsupported
  obtain ⟨hsafe, σ, hfacts, hp, rfl⟩ := h
  obtain ⟨q, hq, hpred, hσ⟩ := hfacts a (by simp [hbody])
  exact ⟨a, hbody, hp, q, hq, hpred, tuple_of_subst hbody hsafe hσ⟩

theorem infers_of_adds (hsupported : rule.supported = true) (hlinear : rule.Linear) (h : Adds S rule p t) :
    rule.Infers S p t := by
  obtain ⟨a, hbody, hlen⟩ := exists_body hsupported
  obtain ⟨a', hbody', hp, q, hq, hpred, htuple⟩ := h
  obtain rfl : a = a' := by simpa [hbody] using hbody'
  obtain ⟨hsafe, hσ, ht⟩ := subst_of_tuple hbody hlen hlinear htuple
  refine ⟨hsafe, bindings a q, fun b hb => ?_, hp, ht⟩
  obtain rfl : b = a := by simpa [hbody] using hb
  exact ⟨q, hq, hpred, hσ⟩

theorem mem_tuples_foldl {result : DatalogResult} {qs : List Quad} : t ∈ (qs.foldl (addTuple rule a) result).tuples p ↔
    t ∈ result.tuples p ∨ rule.head.predicate = p ∧ ∃ q ∈ qs, tuple rule a q = some t := by
  induction qs generalizing result with
  | nil => simp
  | cons q qs ih =>
      rw [List.foldl_cons, ih, List.exists_mem_cons_iff, and_or_left, ← or_assoc]
      refine or_congr_left ?_
      rw [addTuple]
      split
      · rename_i t' ht'
        rw [DatalogResult.tuples_addFact, ht']
        by_cases hp : rule.head.predicate = p
        · simp [hp, eq_comm]
        · simp [hp]
      · rename_i hnone
        simp [hnone]

section
variable (K : B.PlainSet fun _ => True) {s : B.Store}

include K

theorem evaluate_succeeds (h : K.holds s S) (e : OneStep) : Succeeds (e.evaluate (B := B)) s fun result s' =>
    (∀ p t, t ∈ result.tuples p ↔ ∃ r ∈ e.program.rules, Adds S r p t) ∧ s' = s := by
  refine (beginRead_succeeds K h).next fun tx htx => ?_
  refine (Succeeds.foldlM (I := fun rest result => (∀ r ∈ rest, r.supported = true) ∧ ∀ p t,
    (t ∈ result.tuples p ∨ ∃ r ∈ rest, Adds S r p t) ↔ ∃ r ∈ e.program.rules, Adds S r p t) ?_
    ⟨fun r hr => e.accepted r hr, fun p t => by simp [DatalogResult.tuples_new]⟩).mono ?_
  · rintro result rule rest ⟨hsupported, hrest⟩
    obtain ⟨hrule, hsupported⟩ := List.forall_mem_cons.mp hsupported
    obtain ⟨a, hbody, -⟩ := exists_body hrule
    simp only [hbody]
    refine (quadsForPattern_succeeds K (.inr htx) fun l hl => by cases hl).next fun qs hqs => ?_
    refine .ret ⟨⟨hsupported, fun p t => ?_⟩, rfl⟩
    rw [← hrest, List.exists_mem_cons_iff, mem_tuples_foldl, or_assoc]
    refine or_congr_right (or_congr_left ?_)
    simp [Adds, hbody, hqs.2, matchesPattern, and_assoc]
  · rintro result s' ⟨⟨-, hmem⟩, rfl⟩
    exact ⟨fun p t => by simpa using hmem p t, rfl⟩

end

/-- The engine after some loads. -/
def loadAll (programs : List DatalogProgram) : OneStep := programs.foldl (fun e program => (e.loadProgram program).2) new

theorem program_loadAll (programs : List DatalogProgram) :
    (loadAll programs).program = ((programs.filter (·.Accepted)).getLast?).getD ⟨[]⟩ := by
  induction programs using List.reverseRecOn with
  | nil => rfl
  | append_singleton programs program ih =>
      rw [loadAll, List.foldl_append, List.foldl_cons, List.foldl_nil, ← loadAll, List.filter_append]
      by_cases hp : program.Accepted
      · simp [loadProgram, hp]
      · simp [loadProgram, hp, ih]

/-- The engine works with the last program that it accepted. It derives all that follows from the store in one step by a rule
of that program, and nothing else as long as no body has a variable twice: the two places of such a variable are not compared. -/
theorem evaluate_exact (K : B.PlainSet fun _ => True) {s : B.Store} (h : K.holds s S) (programs : List DatalogProgram) :
    let rules := (((programs.filter (·.Accepted)).getLast?).getD ⟨[]⟩).rules
    ∃ result, (loadAll programs).evaluate.run.run s = (.ok result, s) ∧
      (∀ p t, (∃ r ∈ rules, r.Infers S p t) → t ∈ result.tuples p) ∧
      ((∀ r ∈ rules, r.Linear) → ∀ p t, t ∈ result.tuples p ↔ ∃ r ∈ rules, r.Infers S p t) := by
  intro rules
  obtain ⟨result, s', hrun, hmem, rfl⟩ := (evaluate_succeeds K h (loadAll programs)).returns
  have hrules : (loadAll programs).program.rules = rules := congrArg DatalogProgram.rules (program_loadAll programs)
  have hsupported : ∀ r ∈ rules, r.supported = true := hrules ▸ (loadAll programs).accepted
  rw [hrules] at hmem
  have hall : ∀ p t, (∃ r ∈ rules, r.Infers S p t) → t ∈ result.tuples p := fun p t ⟨r, hr, hinfers⟩ =>
    (hmem p t).mpr ⟨r, hr, adds_of_infers (hsupported r hr) hinfers⟩
  refine ⟨result, hrun, hall, fun hlinear p t => ⟨fun ht => ?_, hall p t⟩⟩
  obtain ⟨r, hr, hadds⟩ := (hmem p t).mp ht
  exact ⟨r, hr, infers_of_adds (hsupported r hr) (hlinear r hr) hadds⟩

/-- `child(Y, X) :- parent(X, Y).` -/
theorem evaluate_exact_child :
    let store : Naive.MemStore := ⟨[.triple (.named (ex "alice")) (ex "parent") (.named (ex "bob"))]⟩
    let rule : Rule := ⟨⟨ex "child", [.var "Y", .var "X"]⟩, [.positive ⟨ex "parent", [.var "X", .var "Y"]⟩]⟩
    ∃ result, ((loadAll [⟨[rule]⟩]).evaluate (B := Naive.memStorage)).run.run store = (.ok result, store) ∧
      [.named (ex "bob"), .named (ex "alice")] ∈ result.tuples (ex "child") := by
  intro store rule
  let K := Naive.plainSet (fun _ => True) fun _ _ => trivial
  have hholds : K.holds store store.quads.toFinset := ⟨by simp [store], rfl, fun _ _ => trivial⟩
  obtain ⟨result, hrun, hall, -⟩ := evaluate_exact K hholds [⟨[rule]⟩]
  refine ⟨result, hrun, hall _ _ ⟨rule, ?_, ?_, fun v => if v = "X" then .named (ex "alice") else .named (ex "bob"), ?_⟩⟩
  · simp [DatalogProgram.Accepted, Rule.supported, rule]
  · exact fun v hv => ⟨_, List.mem_singleton_self _, by simpa [rule, or_comm] using hv⟩
  · refine ⟨fun a ha => ?_, rfl, rfl⟩
    obtain rfl : a = ⟨ex "parent", [.var "X", .var "Y"]⟩ := by simpa [rule] using ha
    exact ⟨_, List.mem_toFinset.mpr (List.mem_singleton_self _), rfl, rfl⟩

end OneStep

end Semanticore.Core
