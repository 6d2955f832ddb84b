import Semanticore.Context.Victims
import Semanticore.Lib.Linearization
import Semanticore.Lib.Progress
import Semanticore.Python.Session

/-!
# Threads

Any number of threads call methods of one Session object at the same time. Whatever the interleaving, the answers are
those of the native Session used by one thread, up to the first `close`.
-/

namespace Semanticore.Python
open Semanticore.Core Semanticore.Context Semanticore.Lib

/-! ## One thread -/

variable (P : Platform) (cfg : Settings)

/-- What methods answer on a closed Session. -/
def afterClose (stats : SessionStats) : Call → Answer
  | .closed => .ok (.isClosed true)
  | .close => .ok (.stats stats)
  | _ => .error .sessionClosed

/-- What calls answer that are made one after the other on the Session of a world. -/
def sequential (w : World) : List Call → List Answer
  | [] => []
  | .method ev :: cs => raise (finish ev.op) (w.perform P cfg ev).1 :: sequential (w.step P cfg ev) cs
  | .snapshot scope fates :: cs =>
      (if fates.head? = some .fail then .error (.session .storage)
        else .ok (.snapshot (w.session.snapshot scope))) :: sequential w cs
  | .scopeOf id :: cs => .ok (.scope (w.session.state.scopeOf id)) :: sequential w cs
  | .itemCount scope :: cs => .ok (.count (w.session.state.itemCount scope)) :: sequential w cs
  | .closed :: cs => .ok (.isClosed false) :: sequential w cs
  | .close :: cs => .ok (.stats w.session.state.stats) :: cs.map (afterClose w.session.state.stats)

/-- The operations among calls, up to the first `close`. -/
def operations : List Call → List Event
  | [] => []
  | .method ev :: cs => ev :: operations cs
  | .close :: _ => []
  | .snapshot _ _ :: cs => operations cs
  | .scopeOf _ :: cs => operations cs
  | .itemCount _ :: cs => operations cs
  | .closed :: cs => operations cs

/-- What calls leave that are made one after the other on the Session of a world. -/
def leaves (w : World) : List Call → State
  | [] => .opened (.ofWorld w)
  | .method ev :: cs => leaves (w.step P cfg ev) cs
  | .close :: _ => .closed w.session.state.stats
  | .snapshot _ _ :: cs => leaves w cs
  | .scopeOf _ :: cs => leaves w cs
  | .itemCount _ :: cs => leaves w cs
  | .closed :: cs => leaves w cs

/-! ## Many threads -/

variable {P cfg} {s : State} {c : Call}

theorem call_shared {α : Type} {fates : List Fate} {elapsed : List Duration} {x : SessionM α} {f : α → Answer} :
    (∀ stats, s = .closed stats → (s.call fates elapsed x f).2 = s) ∧
      ∀ n, s = .opened n → ∃ n', (s.call fates elapsed x f).2 = .opened n' := by
  refine ⟨fun stats hs => ?_, fun n hs => ?_⟩
  · rw [hs]
    rfl
  · rw [hs]
    exact ⟨_, rfl⟩

/-- A shared call leaves a closed Session closed, and an open one open. -/
theorem exec_shared (P : Platform) (cfg : Settings) (hc : c.mode = .shared) :
    (∀ stats, s = .closed stats → (exec P cfg s c).2 = s) ∧ ∀ n, s = .opened n → ∃ n', (exec P cfg s c).2 = .opened n' := by
  cases c with
  | method ev => exact call_shared
  | snapshot scope fates => exact call_shared
  | scopeOf id => exact call_shared
  | itemCount scope => exact call_shared
  | closed => cases hc
  | close => cases hc

/-- What a shared call writes is open if the Session is open, and as it is if it is closed. -/
theorem interim_shared {contents : Native → Call → List Native} {s' : State} (hc : c.mode = .shared)
    (hs : s' ∈ interim contents s c ++ [(exec P cfg s c).2]) :
    (∀ stats, s = .closed stats → s' = s) ∧ ∀ n, s = .opened n → ∃ n', s' = .opened n' := by
  rcases List.mem_append.mp hs with hs | hs
  · cases c with
    | close => cases hc
    | closed => cases hc
    | method | snapshot | scopeOf | itemCount =>
      cases s with
      | opened n =>
          obtain ⟨n', -, rfl⟩ := List.mem_map.mp hs
          exact ⟨fun _ h => (by cases h), fun _ _ => ⟨n', rfl⟩⟩
      | closed stats => exact (List.not_mem_nil hs).elim
  · rw [List.mem_singleton.mp hs]
    exact exec_shared P cfg hc

/-- The Session object and its locks. -/
def session (P : Platform) (cfg : Settings) (contents : Native → Call → List Native) : Guarded.Object State Call Answer where
  mode := Call.mode
  exec := exec P cfg
  interim := interim contents
  peek_keeps s c hc := by
    obtain ⟨a, hopen, a', hclosed⟩ := exec_peek P cfg hc
    cases s with
    | opened n => rw [hopen]
    | closed stats => rw [hclosed]
  peek_stable s c c' hc hc' s' hs' := by
    obtain ⟨a, hopen, a', hclosed⟩ := exec_peek P cfg hc
    have hkeeps := interim_shared hc' hs'
    cases s with
    | opened n =>
        obtain ⟨n', rfl⟩ := hkeeps.2 n rfl
        rw [hopen, hopen]
    | closed stats => rw [hkeeps.1 stats rfl]

/-! ## Calls in a row -/

variable {contents : Native → Call → List Native} {w : World}

theorem replay_closed (stats : SessionStats) (cs : List Call) :
    (session P cfg contents).replay (.closed stats) cs = (cs.map (afterClose stats), .closed stats) := by
  induction cs with
  | nil => rfl
  | cons c cs ih =>
      have hexec : exec P cfg (.closed stats) c = (afterClose stats c, .closed stats) := by cases c <;> rfl
      show ((exec P cfg (.closed stats) c).1 :: ((session P cfg contents).replay (exec P cfg (.closed stats) c).2 cs).1,
        ((session P cfg contents).replay (exec P cfg (.closed stats) c).2 cs).2) = _
      rw [hexec, ih]
      rfl

/-- A method that is an operation does to the object what the operation does to the Session. -/
theorem exec_method (w : World) (ev : Event) : exec P cfg (.opened (.ofWorld w)) (.method ev) =
    (raise (finish ev.op) (w.perform P cfg ev).1, .opened (.ofWorld (w.step P cfg ev))) := rfl

theorem exec_snapshot (w : World) (scope : ContextScope) (fates : List Fate) :
    exec P cfg (.opened (.ofWorld w)) (.snapshot scope fates) =
      (if fates.head? = some .fail then .error (.session .storage) else .ok (.snapshot (w.session.snapshot scope)),
        .opened (.ofWorld w)) := by
  rw [exec, call_opened, run_snapshot]
  by_cases hfail : fates.head? = some .fail
  · rw [if_pos (show (Native.world _ fates []).fates.head? = _ from hfail), if_pos hfail]
    rfl
  · rw [if_neg (show ¬ (Native.world _ fates []).fates.head? = _ from hfail), if_neg hfail]
    rfl

theorem replay_opened (w : World) (cs : List Call) :
    (session P cfg contents).replay (.opened (.ofWorld w)) cs = (sequential P cfg w cs, leaves P cfg w cs) := by
  induction cs generalizing w with
  | nil => rfl
  | cons c cs ih =>
      show ((exec P cfg _ c).1 :: ((session P cfg contents).replay (exec P cfg _ c).2 cs).1,
        ((session P cfg contents).replay (exec P cfg _ c).2 cs).2) = _
      cases c with
      | method ev =>
          rw [exec_method, ih]
          rfl
      | snapshot scope fates =>
          rw [exec_snapshot, ih]
          rfl
      | scopeOf id =>
          rw [show exec P cfg (.opened (.ofWorld w)) (.scopeOf id) = (_, .opened (.ofWorld w)) from rfl, ih]
          rfl
      | itemCount scope =>
          rw [show exec P cfg (.opened (.ofWorld w)) (.itemCount scope) = (_, .opened (.ofWorld w)) from rfl, ih]
          rfl
      | closed =>
          rw [show exec P cfg (.opened (.ofWorld w)) .closed = (_, .opened (.ofWorld w)) from rfl, ih]
          rfl
      | close =>
          rw [show exec P cfg (.opened (.ofWorld w)) .close = (_, .closed w.session.state.stats) from rfl, replay_closed]
          rfl

/-- As long as the Session is open it is what the operations made of it. -/
theorem leaves_opened {n : Native} {cs : List Call} (h : leaves P cfg w cs = .opened n) :
    n = .ofWorld (w.run P cfg (operations cs)) := by
  induction cs generalizing w with
  | nil => cases h; rfl
  | cons c cs ih =>
      cases c with
      | method ev => exact ih h
      | close => cases h
      | snapshot scope fates => exact ih h
      | scopeOf id => exact ih h
      | itemCount scope => exact ih h
      | closed => exact ih h

/-! ## Threads -/

/-- Whatever threads do with one Session object, the methods answer as if one thread had called them one after the other,
each between its call and its answer; while no thread works on the object, it is what these calls leave. -/
theorem threads_serialise (P : Platform) (cfg : Settings) (contents : Native → Call → List Native) (w : World)
    (schedule : List (Nat × Guarded.Action Call)) :
    let r := Guarded.System.run (session P cfg contents) (.opened (.ofWorld w)) schedule
    ∃ lin : List (Nat × Call × Answer),
      lin.map (·.2.2) = sequential P cfg w (lin.map (·.2.1)) ∧
      (r.1.mutex = none → r.1.object = leaves P cfg w (lin.map (·.2.1))) ∧
      (lin.map (·.1)).Nodup ∧
      (∀ i c a, (i, c, a) ∈ lin → .called i c ∈ r.2) ∧
      (∀ i a, .answered i a ∈ r.2 → ∃ c, (i, c, a) ∈ lin) ∧
      ∀ i a j c, [.answered i a, .called j c].Sublist r.2 → j ∈ lin.map (·.1) → [i, j].Sublist (lin.map (·.1)) := by
  intro r
  obtain ⟨lin, cur, hlin, hobject⟩ := Guarded.linearizable (session P cfg contents) (.opened (.ofWorld w)) schedule
  have hreplay := hlin.serial.replay
  rw [replay_opened, Prod.mk.injEq] at hreplay
  exact ⟨lin, hreplay.1.symm, fun hmutex => (hobject hmutex).trans hreplay.2.symm, hlin.nodup, hlin.called,
    hlin.answered, hlin.order⟩

/-! ## Closing -/

/-- An answer that shows that the Session is closed: methods raise, `closed` is true, and `close` gives the counters. -/
def Answer.ShowsClosed (a : Answer) : Prop :=
  a = .error .sessionClosed ∨ a = .ok (.isClosed true) ∨ ∃ stats, a = .ok (.stats stats)

theorem not_showsClosed_raise {op : Op} {r : Except Halt Reply} : ¬ Answer.ShowsClosed (raise (finish op) r) := by
  cases r with
  | ok reply => cases op <;> simp [Answer.ShowsClosed, raise, finish]
  | error halt => cases halt <;> simp [Answer.ShowsClosed, raise]

theorem stats_of_afterClose {stats stats' : SessionStats} (h : afterClose stats c = .ok (.stats stats')) :
    stats' = stats := by
  cases c <;> cases h
  rfl

/-- Calls in the order in which they took effect: up to the first `close` they found the Session open, from there on they
found it closed with the same counters. -/
structure SplitAtClose (lin before after : List (Nat × Call × Answer)) (stats : SessionStats) : Prop where
  split : lin = before ++ after
  found_open : ∀ x ∈ before, ¬ x.2.2.ShowsClosed
  found_closed : ∀ x ∈ after, x.2.2 = afterClose stats x.2.1
  close : after ≠ [] → ∃ i a rest, after = (i, .close, a) :: rest

theorem split_at_close {lin : List (Nat × Call × Answer)} (h : lin.map (·.2.2) = sequential P cfg w (lin.map (·.2.1))) :
    ∃ before after stats, SplitAtClose lin before after stats := by
  induction lin generalizing w with
  | nil => exact ⟨[], [], .zero, rfl, by simp, by simp, by simp⟩
  | cons x lin ih =>
      obtain ⟨i, c, a⟩ := x
      -- a call that is not `close` goes before
      have hbefore : ∀ {a' : Answer} {w' : World}, ¬ a'.ShowsClosed →
          a :: lin.map (·.2.2) = a' :: sequential P cfg w' (lin.map (·.2.1)) →
          ∃ before after stats, SplitAtClose ((i, c, a) :: lin) before after stats := by
        intro a' w' hopen heq
        obtain ⟨rfl, hrest⟩ := List.cons.inj heq
        obtain ⟨before, after, stats, rfl, hbefore, hafter, hclose⟩ := ih hrest
        exact ⟨(i, c, a) :: before, after, stats, rfl, List.forall_mem_cons.mpr ⟨hopen, hbefore⟩, hafter, hclose⟩
      cases c with
      | method ev => exact hbefore not_showsClosed_raise h
      | snapshot scope fates => exact hbefore (by split <;> simp [Answer.ShowsClosed]) h
      | scopeOf id => exact hbefore (by simp [Answer.ShowsClosed]) h
      | itemCount scope => exact hbefore (by simp [Answer.ShowsClosed]) h
      | closed => exact hbefore (by simp [Answer.ShowsClosed]) h
      | close =>
          obtain ⟨rfl, hrest⟩ := List.cons.inj h
          rw [List.map_map] at hrest
          exact ⟨[], _ :: lin, w.session.state.stats, rfl, by simp,
            List.forall_mem_cons.mpr ⟨rfl, List.map_inj_left.mp hrest⟩, fun _ => ⟨i, _, lin, rfl⟩⟩

/-- Whatever threads do with one Session object, every `close` that returns gives the same counters; calls made after one
has returned find the Session closed with these counters; and no call finds it closed before somebody called `close`. -/
theorem close_is_final (P : Platform) (cfg : Settings) (contents : Native → Call → List Native) (w : World)
    (schedule : List (Nat × Guarded.Action Call)) :
    let h := (Guarded.System.run (session P cfg contents) (.opened (.ofWorld w)) schedule).2
    (∀ i j stats stats', .answered i (.ok (.stats stats)) ∈ h → .answered j (.ok (.stats stats')) ∈ h → stats = stats') ∧
    (∀ i j stats c a, [.answered i (.ok (.stats stats)), .called j c].Sublist h → .answered j a ∈ h →
      a = afterClose stats c) ∧
    ∀ i a, a.ShowsClosed → .answered i a ∈ h → ∃ j, [.called j .close, .answered i a].Sublist h := by
  intro h
  obtain ⟨lin, cur, hlin, -⟩ := Guarded.linearizable (session P cfg contents) (.opened (.ofWorld w)) schedule
  have hreplay := hlin.serial.replay
  rw [replay_opened, Prod.mk.injEq] at hreplay
  obtain ⟨before, after, stats₀, hsplit, hbefore, hafter, hclose⟩ := split_at_close hreplay.1.symm
  have hlate : ∀ {x}, x ∈ lin → x.2.2.ShowsClosed → x ∈ after := by
    intro x hx hclosed
    rw [hsplit] at hx
    exact (List.mem_append.mp hx).resolve_left fun hx => hbefore x hx hclosed
  have hcounters : ∀ {i c stats}, (i, c, .ok (.stats stats)) ∈ lin → stats = stats₀ := by
    intro i c stats hmem
    exact stats_of_afterClose (hafter _ (hlate hmem (.inr (.inr ⟨stats, rfl⟩)))).symm
  refine ⟨fun i j stats stats' hi hj => ?_, fun i j stats c a horder hj => ?_, fun i a hclosed hanswered => ?_⟩
  · obtain ⟨c, hi⟩ := hlin.answered i _ hi
    obtain ⟨c', hj⟩ := hlin.answered j _ hj
    exact (hcounters hi).trans (hcounters hj).symm
  · obtain ⟨c₁, hi⟩ := hlin.answered i (.ok (.stats stats)) (horder.mem (by simp))
    obtain ⟨c₂, hj⟩ := hlin.answered j _ hj
    have hcall : c₂ = c := (Guarded.Once.run _ _ schedule).once j c₂ c (hlin.called j c₂ a hj) (horder.mem (by simp))
    subst hcall
    have hpair := hlin.pair hi hj horder
    -- the first of the two is not before the first `close`, so neither is the second
    rw [hsplit] at hpair
    obtain ⟨l₁, l₂, heq, h₁, h₂⟩ := List.sublist_append_iff.mp hpair
    cases l₁ with
    | nil =>
        rw [List.nil_append] at heq
        rw [hcounters hi]
        exact hafter (j, c₂, a) (h₂.mem (by rw [← heq]; simp))
    | cons x l₁ =>
        obtain ⟨rfl, -⟩ := List.cons.inj heq
        exact (hbefore _ (h₁.mem List.mem_cons_self) (.inr (.inr ⟨stats, rfl⟩))).elim
  · obtain ⟨c, hi⟩ := hlin.answered i a hanswered
    have hmem := hlate hi hclosed
    obtain ⟨j, a', rest, rfl⟩ := hclose (List.ne_nil_of_mem hmem)
    exact ⟨j, (hsplit ▸ hlin).called_before hmem hanswered⟩

/-! ## Ids and stores -/

/-- The ids an answer gives out. -/
def Answer.addedIds : Answer → List ItemId
  | .ok (.reply r) => r.addedIds
  | _ => []

/-- The items a call asks to add. -/
def Call.newItems : Call → List ContextItem
  | .method ev => ev.op.newItems
  | _ => []

theorem addedIds_raise (op : Op) (r : Except Halt Reply) : (Answer.addedIds (raise (finish op) r)).Sublist (newIds r) := by
  cases r with
  | ok reply => cases op <;> simp [Answer.addedIds, raise, finish, newIds]
  | error halt => cases halt <;> simp [Answer.addedIds, raise]

/-- The ids a call gives out are new: they run from the next id to the next id after the call. -/
theorem newIds_perform (P : Platform) (cfg : Settings) (w : World) (ev : Event) : (newIds (w.perform P cfg ev).1).Nodup ∧
    ∀ id ∈ newIds (w.perform P cfg ev).1, w.session.state.nextId.toNat ≤ id.n.toNat ∧
      id.n.toNat < (w.step P cfg ev).session.state.nextId.toNat := by
  cases hr : (w.perform P cfg ev).1 with
  | error halt => exact ⟨.nil, fun _ hid => (List.not_mem_nil hid).elim⟩
  | ok reply =>
      obtain ⟨τ, hcounts, htrail⟩ := perform_ok (counts_spec P cfg ev.op (w.prepare ev)) hr
      rw [nextId_ends htrail.ends]
      cases hcounts with
      | @added _ items scope hadm hnew _ =>
          rw [newIds, hnew, Session.nextId_added hadm.room]
          exact ⟨idRange_nodup hadm.room, fun id hid => (mem_idRange hadm.room).mp hid⟩
      | answered => exact ⟨.nil, fun _ hid => (List.not_mem_nil hid).elim⟩
      | nothing hnew _ =>
          rw [newIds, hnew]
          exact ⟨.nil, fun _ hid => (List.not_mem_nil hid).elim⟩

/-- Calls made one after the other give out different ids. -/
theorem sequential_ids (w : World) (cs : List Call) : ((sequential P cfg w cs).flatMap Answer.addedIds).Nodup ∧
    ∀ id ∈ (sequential P cfg w cs).flatMap Answer.addedIds, w.session.state.nextId.toNat ≤ id.n.toNat := by
  induction cs generalizing w with
  | nil => exact ⟨.nil, fun _ hid => (List.not_mem_nil hid).elim⟩
  | cons c cs ih =>
      cases c with
      | method ev =>
          obtain ⟨hnodup, hnew⟩ := newIds_perform P cfg w ev
          obtain ⟨hrest, hlow⟩ := ih (w.step P cfg ev)
          have hsub := addedIds_raise ev.op (w.perform P cfg ev).1
          refine ⟨?_, fun id hid => ?_⟩
          · show ((raise _ _ :: sequential P cfg (w.step P cfg ev) cs).flatMap Answer.addedIds).Nodup
            rw [List.flatMap_cons, List.nodup_append']
            refine ⟨hnodup.sublist hsub, hrest, fun id hid hid' => ?_⟩
            exact absurd (hlow id hid') (not_le.mpr (hnew id (hsub.mem hid)).2)
          · rcases List.mem_append.mp (show id ∈ _ ++ _ from hid) with hid | hid
            · exact (hnew id (hsub.mem hid)).1
            · exact (issuedBy_ge P cfg w ev).2.trans (hlow id hid)
      | snapshot scope fates =>
          simp only [sequential, List.flatMap_cons]
          split <;> simpa [Answer.addedIds] using ih w
      | scopeOf id => exact ih w
      | itemCount scope => exact ih w
      | closed => exact ih w
      | close =>
          have hnone : (cs.map (afterClose w.session.state.stats)).flatMap Answer.addedIds = [] := by
            rw [List.flatMap_eq_nil_iff]
            intro a ha
            obtain ⟨c, -, rfl⟩ := List.mem_map.mp ha
            cases c <;> rfl
          simp [sequential, Answer.addedIds, hnone]

/-- The items that calls made one after the other put in were passed to these calls. -/
theorem issued_operations {p : ItemId × ContextItem} {cs : List Call} (hp : p ∈ w.issued P cfg (operations cs)) :
    ∃ c ∈ cs, p.2 ∈ c.newItems := by
  induction cs generalizing w with
  | nil => exact (List.not_mem_nil hp).elim
  | cons c cs ih =>
      have hlater : (∃ w' : World, p ∈ w'.issued P cfg (operations cs)) → ∃ c' ∈ c :: cs, p.2 ∈ c'.newItems := by
        rintro ⟨w', hp⟩
        obtain ⟨c', hc', hitem⟩ := ih hp
        exact ⟨c', List.mem_cons_of_mem _ hc', hitem⟩
      cases c with
      | method ev =>
          rcases List.mem_append.mp (show p ∈ w.issuedBy P cfg ev ++ _ from hp) with hp | hp
          · refine ⟨_, List.mem_cons_self, ?_⟩
            unfold World.issuedBy at hp
            split at hp
            · exact (List.not_mem_nil hp).elim
            · exact (List.of_mem_zip hp).2
          · exact hlater ⟨_, hp⟩
      | close => exact (List.not_mem_nil hp).elim
      | snapshot scope fates => exact hlater ⟨w, hp⟩
      | scopeOf id => exact hlater ⟨w, hp⟩
      | itemCount scope => exact hlater ⟨w, hp⟩
      | closed => exact hlater ⟨w, hp⟩

/-- Whatever threads do with a Session opened on empty stores, and whatever transactions fail: no id is given out twice,
and whenever no thread works on the object and it is open, every live item is one that was passed to a call, its copy is
whole in the store of its scope, and any other store has the same copy or nothing of it. -/
theorem threads_keep_items (P : Platform) (cfg : Settings) (contents : Native → Call → List Native)
    (schedule : List (Nat × Guarded.Action Call)) :
    let r := Guarded.System.run (session P cfg contents) (.opened (.ofWorld World.start)) schedule
    (∀ i a, .answered i a ∈ r.2 → a.addedIds.Nodup) ∧
    (∀ i j a a' id, .answered i a ∈ r.2 → .answered j a' ∈ r.2 → id ∈ a.addedIds → id ∈ a'.addedIds → i = j) ∧
    ∀ n, r.1.mutex = none → r.1.object = .opened n → ∀ id e, n.state.items[id]? = some e →
      (∃ i c, .called i c ∈ r.2 ∧ e.item ∈ c.newItems) ∧
      ∀ s q, Owned id q → (s = e.scope → (q ∈ n.stores.get s ↔ q ∈ encode P id e.item)) ∧
        ((∀ q', Owned id q' → (q' ∈ n.stores.get s ↔ q' ∈ encode P id e.item)) ∨ q ∉ n.stores.get s) := by
  intro r
  obtain ⟨lin, cur, hlin, hobject⟩ :=
    Guarded.linearizable (session P cfg contents) (.opened (.ofWorld World.start)) schedule
  have hreplay := hlin.serial.replay
  rw [replay_opened, Prod.mk.injEq] at hreplay
  have hnodup : ((sequential P cfg World.start (lin.map (·.2.1))).flatMap Answer.addedIds).Nodup :=
    (sequential_ids World.start _).1
  rw [hreplay.1, List.nodup_flatMap] at hnodup
  refine ⟨fun i a hi => ?_, fun i j a a' id hi hj hid hid' => ?_, fun n hmutex hn id e he => ?_⟩
  · obtain ⟨c, hi⟩ := hlin.answered i a hi
    exact hnodup.1 a (List.mem_map_of_mem (f := (·.2.2)) hi)
  · obtain ⟨c, hi⟩ := hlin.answered i a hi
    obtain ⟨c', hj⟩ := hlin.answered j a' hj
    by_contra hne
    have hsymm : Std.Symm fun x y : Nat × Call × Answer => x.2.2.addedIds.Disjoint y.2.2.addedIds :=
      ⟨fun _ _ h => List.Disjoint.symm h⟩
    have hdisjoint := (List.pairwise_map.mp hnodup.2).forall hi hj fun heq => hne (congrArg Prod.fst heq)
    exact hdisjoint hid hid'
  · have hw : n = .ofWorld (World.start.run P cfg (operations (lin.map (·.2.1)))) :=
      leaves_opened (hreplay.2.trans ((hobject hmutex).symm.trans hn))
    subst hw
    have hσ := sound_run P cfg (operations (lin.map (·.2.1)))
    have hplace := State.place_of_live he
    have hknown := hσ.known hplace
    refine ⟨?_, fun s q ho => ⟨fun hs => ?_, ?_⟩⟩
    · obtain ⟨c, hc, hitem⟩ := issued_operations hknown
      obtain ⟨⟨i, c, a⟩, hmem, rfl⟩ := List.mem_map.mp hc
      exact ⟨i, c, hlin.called i c a hmem, hitem⟩
    · exact hs ▸ hσ.home hplace q ho
    · exact (hσ.whole hknown s).imp (fun hholds => hholds) fun hlacks => hlacks q ho

/-! ## Progress -/

/-- Threads do not block one another for good. If no further calls are made, then after finitely many steps, whichever are
taken, no thread can go on; when none can, all calls that were made have been answered, as if one thread had made all of
them one after the other, and the object is what they leave. -/
theorem calls_return (P : Platform) (cfg : Settings) (contents : Native → Call → List Native) (w : World)
    (schedule : List (Nat × Guarded.Action Call)) :
    let O := session P cfg contents
    let r := Guarded.System.run O (.opened (.ofWorld w)) schedule
    Acc (fun s' s => Guarded.Moves O s s') r.1 ∧
      ((∀ s', ¬ Guarded.Moves O r.1 s') → ∃ lin : List (Nat × Call × Answer),
        (lin.map (·.1)).Nodup ∧
        (∀ i c a, (i, c, a) ∈ lin ↔ .called i c ∈ r.2 ∧ .answered i a ∈ r.2) ∧
        (∀ i c, .called i c ∈ r.2 → ∃ a, (i, c, a) ∈ lin) ∧
        lin.map (·.2.2) = sequential P cfg w (lin.map (·.2.1)) ∧
        r.1.object = leaves P cfg w (lin.map (·.2.1))) := by
  intro O r
  refine ⟨Guarded.comes_to_rest O _ schedule, fun hrest => ?_⟩
  obtain ⟨hmutex, hanswered⟩ := Guarded.at_rest O _ schedule hrest
  obtain ⟨lin, cur, hlin, hobject⟩ := Guarded.linearizable O (.opened (.ofWorld w)) schedule
  have hreplay := hlin.serial.replay
  rw [replay_opened, Prod.mk.injEq] at hreplay
  have honce := (Guarded.Once.run O (.opened (.ofWorld w)) schedule).once
  have hmem : ∀ i c a, .called i c ∈ r.2 → .answered i a ∈ r.2 → (i, c, a) ∈ lin := by
    intro i c a hc ha
    obtain ⟨c', hmem⟩ := hlin.answered i a ha
    exact honce i c' c (hlin.called i c' a hmem) hc ▸ hmem
  refine ⟨lin, hlin.nodup, fun i c a => ⟨fun hx => ?_, fun h => hmem i c a h.1 h.2⟩, fun i c hc => ?_,
    hreplay.1.symm, (hobject hmutex).trans hreplay.2.symm⟩
  · have hc := hlin.called i c a hx
    obtain ⟨a', ha'⟩ := hanswered i c hc
    have heq := List.inj_on_of_nodup_map hlin.nodup hx (hmem i c a' hc ha') rfl
    cases heq
    exact ⟨hc, ha'⟩
  · obtain ⟨a, ha⟩ := hanswered i c hc
    exact ⟨a, hmem i c a hc ha⟩

end Semanticore.Python
