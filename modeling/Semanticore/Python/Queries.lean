import Semanticore.Python.Items
import Semanticore.Context.QueryScan

/-!
# Queries as Python objects

`semanticore-context-py/src/query.rs`. The arguments of a query are objects like those that the items were made of, and
the query finds the items that show them.
-/

namespace Semanticore.Python
open Semanticore.Core Semanticore.Context Semanticore.Lib

/-! ## Constructors of queries -/

def scopesError : PyErr := .typeError "scopes must be None, a ContextScope or an iterable of them"

/-- `extract::<PyContextScope>`. -/
def scopeFromPy : PyObj → PyResult ContextScope
  | .scope s => .ok s
  | _ => .error scopesError

def scopesFromPy : PyObj → PyResult ScopeSelection
  | .none => .ok .all
  | .scope s => .ok (.single s)
  | o =>
      match tryIter o with
      | .error _ => .error scopesError
      | .ok objs => do return .set (← objs.mapM scopeFromPy)

/-- An argument that may be `None`. -/
def given {α : Type} (f : PyObj → PyResult α) : PyObj → PyResult (Option α)
  | .none => .ok none
  | o => do return some (← f o)

def patternFromPy (subject predicate object : PyObj) : PyResult QuadPattern := do
  return { subject := ← given subjectFromPy subject
           predicate := ← given predicateFromPy predicate
           object := ← given objectFromPy object }

def build (scopes : PyObj) (kind : ContextQueryKind) (limit : Option Nat) (reasonerHint : Option ContextScope) :
    PyResult ContextQuery := do
  return { scopes := ← scopesFromPy scopes, kind, limit, reasonerHint }

def pattern (subject predicate object scopes : PyObj) (limit : Option Nat) (reasonerHint : Option ContextScope) :
    PyResult ContextQuery := do
  build scopes (.pattern (← patternFromPy subject predicate object)) limit reasonerHint

/-! ## Scopes -/

/-- `scopes` names `s`: `None` names every scope. -/
def Names (scopes : PyObj) (s : ContextScope) : Prop :=
  scopes = .none ∨ scopes = .scope s ∨ ∃ objs, tryIter scopes = .ok objs ∧ .scope s ∈ objs

theorem scopeFromPy_eq_ok {o : PyObj} {s : ContextScope} : scopeFromPy o = .ok s ↔ o = .scope s := by
  cases o <;> simp [scopeFromPy]

/-- What is neither `None` nor a scope is an iterable of scopes. -/
theorem scopesFromPy_eq_ok {o : PyObj} {sel : ScopeSelection} (h : scopesFromPy o = .ok sel) :
    (o = .none ∧ sel = .all) ∨ (∃ s, o = .scope s ∧ sel = .single s) ∨
      ∃ v, tryIter o = .ok (v.map .scope) ∧ sel = .set v := by
  unfold scopesFromPy at h
  split at h
  · cases h
    exact Or.inl ⟨rfl, rfl⟩
  · cases h
    exact Or.inr (Or.inl ⟨_, rfl, rfl⟩)
  · split at h
    · cases h
    · rename_i objs hiter
      obtain ⟨v, hv, rfl⟩ := map_eq_ok.mp h
      cases (mapM_eq_ok_map PyObj.scope fun _ _ => scopeFromPy_eq_ok).mp hv
      exact Or.inr (Or.inr ⟨v, hiter, rfl⟩)

theorem mem_listed {o : PyObj} {sel : ScopeSelection} (h : scopesFromPy o = .ok sel) (s : ContextScope) :
    s ∈ sel.listed ↔ Names o s := by
  rcases scopesFromPy_eq_ok h with ⟨rfl, rfl⟩ | ⟨s', rfl, rfl⟩ | ⟨v, hiter, rfl⟩
  · cases s <;> simp [ScopeSelection.listed, ContextScope.all, Names]
  · simp [ScopeSelection.listed, Names, tryIter, eq_comm]
  · have hnone : o ≠ .none := by
      rintro rfl
      simp [tryIter] at hiter
    have hscope : o ≠ .scope s := by
      rintro rfl
      simp [tryIter] at hiter
    simp [ScopeSelection.listed, Names, hiter, hnone, hscope]

/-! ## Patterns -/

/-- A part of a pattern that is read back from what it is shown as matches what is shown in the same way. -/
theorem given_matches {α : Type} [DecidableEq α] {read : PyObj → PyResult α} {shown : α → PyObj}
    (hread : ∀ o a, read o = .ok a ↔ o = shown a) {o : PyObj} {part : Option α} (h : given read o = .ok part) (a : α) :
    part.all (fun b => decide (a = b)) = true ↔ o = .none ∨ o = shown a := by
  unfold given at h
  split at h
  · cases h
    simp
  · rename_i hne
    obtain ⟨b, hb, rfl⟩ := map_eq_ok.mp h
    have hsame : o = shown a ↔ a = b := by
      rw [← hread, hb, Except.ok.injEq, eq_comm]
    simpa [hsame] using fun hnone => (hne hnone).elim

/-- A pattern matches a triple exactly if each object that is given is the one that the triple is shown with. -/
theorem patternFromPy_matches {s p o : PyObj} {pat : QuadPattern} (h : patternFromPy s p o = .ok pat) (t : Quad) :
    pat.matches t = true ↔ (s = .none ∨ s = subjectToPy t.subject) ∧
      (p = .none ∨ p = .str (.ofString t.predicate.iri)) ∧ (o = .none ∨ o = objectToPy t.object) := by
  simp only [patternFromPy, bind_eq_ok] at h
  obtain ⟨subject, hs, predicate, hp, object, ho, h⟩ := h
  cases h
  simp only [QuadPattern.matches, matchesPattern, Option.all_none, Bool.and_true, Bool.and_eq_true, and_assoc,
    given_matches (fun _ _ => subjectFromPy_eq_ok) hs, given_matches (fun _ _ => predicateFromPy_eq_ok) hp,
    given_matches (fun _ _ => objectFromPy_eq_ok) ho]

/-! ## What a query finds -/

/-- The getter `triples` shows one that agrees with the objects that are given. -/
def Shows (item : ContextItem) (s p o : PyObj) : Prop :=
  ∃ objs a b c, getTriples item = some (.list objs) ∧ .tuple [a, b, c] ∈ objs ∧
    (s = .none ∨ s = a) ∧ (p = .none ∨ p = b) ∧ (o = .none ∨ o = c)

variable {P : Platform} {cfg : Settings} {s p o scopes : PyObj} {limit : Option Nat} {hint : Option ContextScope}
  {q : ContextQuery} {item : ContextItem}

theorem exists_matchingTriple {pat : QuadPattern} (h : patternFromPy s p o = .ok pat) :
    (∃ t, t ∈ matchingTriples pat item) ↔ Shows item s p o := by
  simp only [mem_matchingTriples, patternFromPy_matches h, Shows]
  obtain ⟨payload, prov, scopeHint, emb⟩ := item
  cases payload with
  | triples quads =>
      simp only [getTriples, Option.some.injEq, PyObj.list.injEq, ContextPayload.quads]
      constructor
      · rintro ⟨t, ht, hs, hp, ho⟩
        exact ⟨_, _, _, _, rfl, List.mem_map.mpr ⟨t, ht, rfl⟩, hs, hp, ho⟩
      · rintro ⟨objs, a, b, c, rfl, hmem, hs, hp, ho⟩
        obtain ⟨t, ht, heq⟩ := List.mem_map.mp hmem
        cases heq
        exact ⟨t, ht, hs, hp, ho⟩
  | event kind body => simp [getTriples, ContextPayload.quads]
  | chunk content contentType => simp [getTriples, ContextPayload.quads]

theorem pattern_eq_ok (h : pattern s p o scopes limit hint = .ok q) :
    ∃ pat sel, patternFromPy s p o = .ok pat ∧ scopesFromPy scopes = .ok sel ∧ q = ⟨sel, .pattern pat, limit, hint⟩ := by
  obtain ⟨pat, hpat, h⟩ := bind_eq_ok.mp h
  obtain ⟨sel, hsel, h⟩ := bind_eq_ok.mp h
  cases h
  exact ⟨pat, sel, hpat, hsel, rfl⟩

/-- The items of an answer without a limit: each is live in its scope, the scope is listed, and a triple matches. -/
theorem mem_unlimited {st : Context.State} {sel : ScopeSelection} {kind : ContextQueryKind} {pat : QuadPattern}
    {x : RankedItem} :
    x ∈ naiveItems st ⟨sel, kind, none, hint⟩ pat ↔ st.place x.id = some (x.item, x.sourceScope) ∧
      x.sourceScope ∈ sel.listed ∧ x.score = 1.0 ∧ ∃ t, t ∈ matchingTriples pat x.item := by
  simp only [naiveItems, applyLimit, List.mem_flatMap, List.mem_eraseDups, List.mem_map, Prod.exists, mem_scan]
  constructor
  · rintro ⟨scope, hlisted, id, e, ⟨he, rfl, ht⟩, rfl⟩
    exact ⟨Context.State.place_of_live he, hlisted, rfl, ht⟩
  · rintro ⟨hplace, hlisted, hscore, ht⟩
    obtain ⟨e, he, hitem, hscope⟩ := Context.State.place_eq_some.mp hplace
    obtain ⟨id, item, score, scope⟩ := x
    cases hitem
    cases hscope
    cases hscore
    exact ⟨_, hlisted, id, e, ⟨he, rfl, ht⟩, rfl⟩

/-- A query made of Python objects, in a session opened on empty stores, after any run of operations, whatever failed. The
items to find are those that are live in a scope that was asked for and show a triple of the objects that were given.
The answer is a list of all of them, each once, cut off at the limit. -/
theorem python_queries_find (P : Platform) (cfg : Settings) (evs : List Event)
    (hq : pattern s p o scopes limit hint = .ok q) (fates : List Fate) (elapsed : List Duration) (r : ContextQueryResult)
    (h : ((World.start.run P cfg evs).perform P cfg ⟨.query q, fates, elapsed⟩).1 = .ok (.result r)) :
    let found := fun x : RankedItem =>
      (World.start.run P cfg evs).session.state.place x.id = some (x.item, x.sourceScope) ∧
        Names scopes x.sourceScope ∧ x.score = 1.0 ∧ Shows x.item s p o
    ∃ all : List RankedItem, (∀ x, x ∈ all ↔ found x) ∧ (all.map (·.id)).Nodup ∧ r.items = applyLimit limit all := by
  intro found
  obtain ⟨pat, sel, hpat, hsel, rfl⟩ := pattern_eq_ok hq
  have hσ : Sound P (World.start.issued P cfg evs) _ :=
    (sound_run P cfg evs).same (samePlaces_prepare _ ⟨.query ⟨sel, .pattern pat, limit, hint⟩, fates, elapsed⟩)
  obtain ⟨pat', now, hpattern, -, -, -, hitems, -⟩ :=
    perform_map (fun _ _ h => Reply.result.inj h) rfl query_spec h
  cases queryPattern_ok hpattern
  have hnaive : r.items = naiveItems (World.start.run P cfg evs).session.state ⟨sel, .pattern pat, limit, hint⟩ pat :=
    List.right_unique_forall₂' rankedAs_unique hitems (hσ.hits_ranked _ pat)
  refine ⟨naiveItems (World.start.run P cfg evs).session.state ⟨sel, .pattern pat, none, hint⟩ pat, fun x => ?_,
    naiveItems_nodup .., hnaive⟩
  rw [mem_unlimited, mem_listed hsel, exists_matchingTriple hpat]

/-- A subject is given, the rest is `None`: the answer is the one item with a triple of this subject. -/
theorem python_queries_find_subject :
    let evs : List Event := [⟨.add .minor note, [], []⟩, ⟨.add .minor fact, [], []⟩]
    let subject : PyObj := .str (.ofString "urn:a")
    let r : ContextQueryResult :=
      { items := [{ id := ⟨1⟩, item := fact, score := 1.0, sourceScope := .minor }],
        queryStats := { scopesConsulted := 1, quadsMatched := 1, autoPromoted := 0 } }
    ∀ x : RankedItem, (World.start.run factPlatform (manual none) evs).session.state.place x.id =
        some (x.item, x.sourceScope) → Names (.list [.scope .minor]) x.sourceScope → x.score = 1.0 →
      Shows x.item subject .none .none → x ∈ r.items := by
  intro evs subject r x hplace hscope hscore hshows
  have hquery : pattern subject .none .none (.list [.scope .minor]) none none =
      .ok ⟨.set [.minor], .pattern ⟨some (.named ⟨"urn:a"⟩), none, none⟩, none, none⟩ := rfl
  obtain ⟨all, hall, -, hitems⟩ := python_queries_find factPlatform (manual none) evs hquery [] [] r rfl
  exact hitems ▸ (hall x).mpr ⟨hplace, hscope, hscore, hshows⟩

end Semanticore.Python
