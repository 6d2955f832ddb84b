import Semanticore.Context.Lemmas.Index

/-!
# The checks that refuse an operation
-/

namespace Semanticore.Context
open Semanticore.Core

theorem nodup_eraseDups {α : Type} [DecidableEq α] (l : List α) : l.eraseDups.Nodup := by
  induction hn : l.length using Nat.strong_induction_on generalizing l with
  | _ n ih =>
      cases l with
      | nil => simp
      | cons a l =>
          rw [List.eraseDups_cons, List.nodup_cons, List.mem_eraseDups]
          refine ⟨by simp, ih _ ?_ _ rfl⟩
          have := List.length_filter_le (fun b => !b == a) l
          simp only [List.length_cons] at hn
          omega

variable {st : State} {item : ContextItem} {ids us : List ItemId} {scope : ContextScope} {e : SessionError}

theorem validate_ok : validate st item = .ok () ↔
    trimIsEmpty item.provenance.source = false ∧ (∀ q ∈ item.payload.quads, q.graph = .default) ∧
      (∀ x ∈ item.embedding.getD [], x.isFinite = true) ∧
      ∀ id ∈ item.provenance.derivedFrom, st.items.contains id = true := by
  unfold validate
  simp only [bind, Except.bind]
  split_ifs with hsource hgraph hfinite
  · simp [hsource]
  · simp only [List.any_eq_true, decide_eq_true_eq] at hgraph
    obtain ⟨q, hq, hne⟩ := hgraph
    simp only [false_iff]
    exact fun h => hne (h.2.1 q hq)
  · simp only [List.any_eq_true, Bool.not_eq_true'] at hfinite
    obtain ⟨x, hx, hinf⟩ := hfinite
    simp only [false_iff]
    exact fun h => Bool.false_ne_true (hinf.symm.trans (h.2.2.1 x hx))
  · have hsource' : trimIsEmpty item.provenance.source = false := by simpa using hsource
    have hgraph' : ∀ q ∈ item.payload.quads, q.graph = .default := by simpa using hgraph
    have hfinite' : ∀ x ∈ item.embedding.getD [], x.isFinite = true := by simpa using hfinite
    cases hfind : item.provenance.derivedFrom.find? (fun id => !st.items.contains id) with
    | some id =>
        have hid : st.items.contains id = false := by simpa using List.find?_some hfind
        have hmem := List.mem_of_find?_eq_some hfind
        simp only [reduceCtorEq, false_iff]
        exact fun h => Bool.false_ne_true (hid.symm.trans (h.2.2.2 id hmem))
    | none =>
        have hcited : ∀ id ∈ item.provenance.derivedFrom, st.items.contains id = true := by
          simpa using hfind
        exact ⟨fun _ => ⟨hsource', hgraph', hfinite', hcited⟩, fun _ => rfl⟩

theorem validate_error (h : validate st item = .error e) : e ≠ .storage := by
  unfold validate at h
  simp only [bind, Except.bind] at h
  split_ifs at h
  · cases h; simp
  · cases h; simp
  · cases h; simp
  · split at h <;> cases h
    simp

/-- What `check_in_scope` says of one id. -/
def idCheck (st : State) (scope : ContextScope) (id : ItemId) : Except SessionError Unit :=
  match st.items[id]? with
  | none => .error (.unknownItem id)
  | some e => if e.scope ≠ scope then .error (.scopeMismatch id scope e.scope) else .ok ()

theorem idCheck_ok {id : ItemId} : idCheck st scope id = .ok () ↔ st.scopeOf id = some scope := by
  unfold idCheck State.scopeOf
  cases st.items[id]? with
  | none => simp
  | some e => simp

theorem idCheck_error {id : ItemId} (h : idCheck st scope id = .error e) : e ≠ .storage := by
  unfold idCheck at h
  split at h
  · cases h; simp
  · split at h <;> cases h
    simp

theorem forM_idCheck (st : State) (scope : ContextScope) (ids : List ItemId) :
    (ids.forM (idCheck st scope) = .ok () ∧ ∀ id ∈ ids, st.scopeOf id = some scope) ∨
      ∃ e, ids.forM (idCheck st scope) = .error e ∧ e ≠ .storage ∧ ∃ id ∈ ids, st.scopeOf id ≠ some scope := by
  induction ids with
  | nil => exact Or.inl ⟨rfl, by simp⟩
  | cons id ids ih =>
      cases hid : idCheck st scope id with
      | error e =>
          refine Or.inr ⟨e, ?_, idCheck_error hid, id, by simp, fun h => ?_⟩
          · show (idCheck st scope id >>= fun _ => ids.forM (idCheck st scope)) = _
            rw [hid]
            rfl
          · rw [idCheck_ok.mpr h] at hid; cases hid
      | ok u =>
          have hforM : (id :: ids).forM (idCheck st scope) = ids.forM (idCheck st scope) := by
            show (idCheck st scope id >>= fun _ => ids.forM (idCheck st scope)) = _
            rw [hid]
            rfl
          rw [hforM]
          rcases ih with ⟨hok, hall⟩ | ⟨e, herr, hne, id', hid', hbad⟩
          · exact Or.inl ⟨hok, by simpa [idCheck_ok.mp hid] using hall⟩
          · exact Or.inr ⟨e, herr, hne, id', by simp [hid'], hbad⟩

theorem checkInScope_eq : checkInScope st ids scope =
    (ids.eraseDups.forM (idCheck st scope) >>= fun _ => .ok ids.eraseDups) := rfl

theorem checkInScope_ok : checkInScope st ids scope = .ok us ↔
    us = ids.eraseDups ∧ ∀ id ∈ ids, st.scopeOf id = some scope := by
  rw [checkInScope_eq]
  rcases forM_idCheck st scope ids.eraseDups with ⟨hok, hall⟩ | ⟨e, herr, -, id, hid, hbad⟩
  · rw [hok]
    simp only [List.mem_eraseDups] at hall
    constructor
    · intro h
      cases h
      exact ⟨rfl, hall⟩
    · rintro ⟨rfl, -⟩
      rfl
  · rw [herr]
    simp only [List.mem_eraseDups] at hid
    constructor
    · intro h
      cases h
    · intro h
      exact (hbad (h.2 id hid)).elim

theorem checkInScope_error (h : checkInScope st ids scope = .error e) : e ≠ .storage := by
  rw [checkInScope_eq] at h
  rcases forM_idCheck st scope ids.eraseDups with ⟨hok, -⟩ | ⟨e', herr, hne, -⟩
  · rw [hok] at h; cases h
  · rw [herr] at h; cases h; exact hne

theorem queryPattern_error {q : ContextQuery} (h : queryPattern q = .error e) : e ≠ .storage := by
  unfold queryPattern at h
  split at h
  · split at h <;> cases h
    simp [nyi]
  all_goals cases h; simp [nyi]

end Semanticore.Context
