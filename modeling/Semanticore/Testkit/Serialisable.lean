import Semanticore.Testkit.MemStore

/-!
# The reference store is serialisable

The store is the optimistic system over a plain set of quads, with the number of commits as version. The two agree
as long as the version counter does not wrap.
-/

namespace Semanticore.Testkit
open Semanticore.Core Semanticore.Lib Semanticore.Lib.Optimistic

/-! ## Histories of the store as histories of the optimistic system -/

def Step.view : Step → Action Call
  | .beginRead => .begin false
  | .beginWrite => .begin true
  | .call c => .call c
  | .commit => .commit
  | .rollback => .abort
  | .drop => .abort

def Reply.view : Reply → Optimistic.Reply Answer
  | .begun => .ok
  | .answer a => .answer a
  | .ended (.ok _) => .ok
  | .ended (.error _) => .conflict

def Event.view (e : Event) : Optimistic.Event Call Answer := ⟨e.tx, e.step.view, e.reply.view⟩

def view (h : List Event) : List (Optimistic.Event Call Answer) := h.map Event.view

/-- A call in a transaction of the given kind, on a plain set of quads. -/
def kindCall (writable : Bool) (S : Finset Quad) (c : Call) : Answer × Finset Quad :=
  if writable || c.reads then plainCall S c else (.error readOnlyError, S)

theorem call_eq (tx : MemTx) (c : Call) : tx.call c =
    ((kindCall tx.writable tx.working c).1, { tx with working := (kindCall tx.writable tx.working c).2 }) := by
  obtain ⟨base, working, writable⟩ := tx
  cases writable <;> cases c <;> rfl

/-! ## Simulation -/

variable {st : MemState} {w w' : World} {db : Db (Finset Quad)} {h : List Event} {t : Nat} {s : Step} {r : Reply}

inductive SameStatus (st : MemState) : TxStatus → Status (Finset Quad) → Prop
  | unused : SameStatus st .unused .unused
  | active (base : Nat) (working : Finset Quad) (writable : Bool) :
      SameStatus st (.active ⟨st.version + UInt64.ofNat base, working, writable⟩) (.active ⟨base, writable, working⟩)
  | ended : SameStatus st .ended .ended

structure Sim (st : MemState) (w : World) (db : Db (Finset Quad)) : Prop where
  version : w.store.version = st.version + UInt64.ofNat db.version
  quads : w.store.quads = db.data
  txs : ∀ t, SameStatus st (w.txs t) (db.txs t)

theorem Sim.set {a : TxStatus} {b : Status (Finset Quad)} (hsim : Sim st w db) (t : Nat) (hstatus : SameStatus st a b) :
    Sim st (w.set t a) (db.set t b) := by
  refine ⟨hsim.version, hsim.quads, fun t' => ?_⟩
  by_cases hne : t = t'
  · subst hne
    simpa [World.set, Db.set] using hstatus
  · simpa [World.set, Db.set, Function.update_of_ne (Ne.symm hne)] using hsim.txs t'

/-- Versions that did not wrap are equal when their numbers of commits are. -/
theorem version_eq_iff {a b : Nat} (ha : st.version.toNat + a < 2 ^ 64) (hb : st.version.toNat + b < 2 ^ 64) :
    st.version + UInt64.ofNat a = st.version + UInt64.ofNat b ↔ a = b := by
  rw [← UInt64.toNat_inj]
  simp only [UInt64.toNat_add, UInt64.toNat_ofNat']
  omega

theorem sim_start (st : MemState) : Sim st (World.start st) (Db.start st.quads) :=
  ⟨by simp [World.start, Db.start], rfl, fun _ => .unused⟩

theorem commit_reader {tx : MemTx} (hreader : tx.writable = false) (st : MemState) : tx.commit st = (.ok (), st) := by
  simp [MemTx.commit, hreader]

theorem commit_stale {tx : MemTx} (hwriter : tx.writable = true) (hstale : st.version ≠ tx.baseVersion) :
    tx.commit st = (.error .transactionConflict, st) := by
  simp [MemTx.commit, hwriter, hstale]

theorem commit_new {tx : MemTx} (hwriter : tx.writable = true) (hnew : st.version = tx.baseVersion) :
    tx.commit st = (.ok (), { quads := tx.working, version := st.version + 1 }) := by
  simp [MemTx.commit, hwriter, hnew]

/-- The store takes a step exactly when the optimistic system does, and both answer the same. -/
theorem Sim.step (hsim : Sim st w db) (hroom : st.version.toNat + db.version < 2 ^ 64)
    (hbase : ∀ t tx, db.txs t = .active tx → tx.base ≤ db.version) :
    match w.step t s, db.step kindCall t s.view with
    | none, none => True
    | some (r, w'), some (r', db') => r.view = r' ∧ Sim st w' db'
    | _, _ => False := by
  have hstatus := hsim.txs t
  unfold World.step Db.step
  cases hw : w.txs t with
  | unused =>
      rw [hw] at hstatus
      cases hdb : db.txs t <;> rw [hdb] at hstatus <;> cases hstatus
      have hbegin : ∀ writable, Sim st (w.set t (.active ⟨w.store.version, w.store.quads, writable⟩))
          (db.set t (.active ⟨db.version, writable, db.data⟩)) := fun writable => by
        refine hsim.set t ?_
        rw [hsim.version, hsim.quads]
        exact .active ..
      cases s <;> simp only [Step.view]
      · exact ⟨rfl, hbegin false⟩
      · exact ⟨rfl, hbegin true⟩
  | active tx =>
      rw [hw] at hstatus
      cases hdb : db.txs t <;> rw [hdb] at hstatus <;> cases hstatus
      rename_i base working writable
      have hle : base ≤ db.version := hbase t _ hdb
      cases s <;> simp only [Step.view]
      · rename_i c
        rw [call_eq]
        exact ⟨rfl, hsim.set t (.active ..)⟩
      · cases writable with
        | false =>
            rw [commit_reader rfl]
            exact ⟨rfl, hsim.set t .ended⟩
        | true =>
            have hsame : w.store.version = st.version + UInt64.ofNat base ↔ db.version = base := by
              rw [hsim.version]
              exact version_eq_iff hroom (by omega)
            by_cases hnew : db.version = base
            · rw [commit_new rfl (hsame.mpr hnew)]
              simp only [Bool.true_eq_false, if_false, hnew, ne_eq, not_true]
              refine ⟨rfl, ?_, rfl, (hsim.set t .ended).txs⟩
              dsimp only
              rw [hsim.version, hnew, UInt64.ofNat_add, UInt64.add_assoc]
              rfl
            · rw [commit_stale rfl (fun heq => hnew (hsame.mp heq))]
              simp only [Bool.true_eq_false, if_false, ne_eq, hnew, not_false_eq_true, if_true]
              exact ⟨rfl, hsim.set t .ended⟩
      · exact ⟨rfl, hsim.set t .ended⟩
      · exact ⟨rfl, hsim.set t .ended⟩
  | ended =>
      rw [hw] at hstatus
      cases hdb : db.txs t <;> rw [hdb] at hstatus <;> cases hstatus
      cases s <;> trivial

/-! ## Runs -/

def viewSchedule (schedule : List (Nat × Step)) : List (Nat × Action Call) := schedule.map fun next => (next.1, next.2.view)

variable {schedule : List (Nat × Step)}

theorem run_snoc (w : World) (schedule : List (Nat × Step)) (next : Nat × Step) :
    w.run (schedule ++ [next]) = World.advance (w.run schedule) next := by
  simp [World.run, List.foldl_append]

theorem view_snoc (h : List Event) (e : Event) : view (h ++ [e]) = view h ++ [e.view] := List.map_append

/-- A step adds at most one commit. -/
theorem commits_advance (s : World × List Event) (next : Nat × Step) :
    commits (view s.2) <+: commits (view (World.advance s next).2) := by
  unfold World.advance
  split
  · exact List.prefix_rfl
  · rw [view_snoc]
    exact commits_grow ..

theorem commits_run (w : World) (schedule schedule' : List (Nat × Step)) :
    commits (view (w.run schedule).2) <+: commits (view (w.run (schedule ++ schedule')).2) := by
  unfold World.run
  rw [List.foldl_append]
  generalize List.foldl World.advance (w, []) schedule = s₀
  induction schedule' generalizing s₀ with
  | nil => exact List.prefix_rfl
  | cons next schedule' ih => exact (commits_advance s₀ next).trans (ih _)

/-- As long as the version does not wrap, a run of the store is a run of the optimistic system. -/
theorem sim_run (st : MemState) (schedule : List (Nat × Step))
    (hroom : st.version.toNat + (commits (view ((World.start st).run schedule).2)).length < 2 ^ 64) :
    Sim st ((World.start st).run schedule).1 ((Db.start st.quads).run kindCall (viewSchedule schedule)).1 ∧
      view ((World.start st).run schedule).2 = ((Db.start st.quads).run kindCall (viewSchedule schedule)).2 := by
  induction schedule using List.reverseRecOn with
  | nil => exact ⟨sim_start st, rfl⟩
  | append_singleton schedule next ih =>
      rw [run_snoc] at hroom
      have hgrows := (commits_advance ((World.start st).run schedule) next).length_le
      obtain ⟨hsim, hview⟩ := ih (by omega)
      have hinv := inv_run kindCall st.quads (viewSchedule schedule)
      have hversion := hinv.version
      rw [← hview] at hversion
      have hadvance : (Db.start st.quads).run kindCall (viewSchedule (schedule ++ [next])) =
          Db.advance kindCall ((Db.start st.quads).run kindCall (viewSchedule schedule)) (next.1, next.2.view) := by
        simp [viewSchedule, Db.run, List.foldl_append]
      rw [run_snoc, hadvance]
      have hstep := hsim.step (t := next.1) (s := next.2) (by omega) fun t tx ht =>
        (hinv.active t tx ht).base.trans_eq hinv.version.symm
      unfold World.advance Db.advance
      split at hstep
      · rename_i hw hdb
        rw [hw, hdb]
        exact ⟨hsim, hview⟩
      · rename_i r w' r' db' hw hdb
        rw [hw, hdb]
        obtain ⟨rfl, hsim'⟩ := hstep
        exact ⟨hsim', by rw [view_snoc, hview]; rfl⟩
      · exact hstep.elim

/-- The kind of transaction that a step begins. -/
def Step.begins : Step → Option Bool
  | .beginRead => some false
  | .beginWrite => some true
  | _ => none

/-- Only an accepted commit of a writer changes the store. -/
theorem World.step_store (hstep : w.step t s = some (r, w')) : w'.store = w.store ∨
    s = .commit ∧ r = .ended (.ok ()) ∧ ∃ tx, w.txs t = .active tx ∧ tx.writable = true := by
  unfold World.step at hstep
  split at hstep
  · cases hstep
    exact Or.inl rfl
  · cases hstep
    exact Or.inl rfl
  · cases hstep
    exact Or.inl rfl
  · rename_i tx ht
    cases hstep
    unfold MemTx.commit
    split
    · exact Or.inl rfl
    · rename_i hwriter
      split
      · exact Or.inl rfl
      · exact Or.inr ⟨rfl, rfl, tx, ht, by simpa using hwriter⟩
  · cases hstep
    exact Or.inl rfl
  · cases hstep
    exact Or.inl rfl
  · cases hstep

/-- The only error of a commit is a conflict. -/
theorem World.step_commit (hstep : w.step t .commit = some (r, w')) :
    r = .ended (.error .transactionConflict) ∧ r.view = .conflict ∨ r = .ended (.ok ()) ∧ r.view = .ok := by
  unfold World.step at hstep
  cases ht : w.txs t with
  | active tx =>
      rw [ht] at hstep
      cases hstep
      unfold MemTx.commit
      split
      · exact Or.inr ⟨rfl, rfl⟩
      · split
        · exact Or.inl ⟨rfl, rfl⟩
        · exact Or.inr ⟨rfl, rfl⟩
  | _ =>
      rw [ht] at hstep
      cases hstep

/-! ## One transaction from its begin on -/

/-- A transaction begun in a reachable state, followed through the rest of the schedule. -/
theorem since_run {schedule' : List (Nat × Step)} {writable : Bool}
    (hroom : st.version.toNat + (commits (view ((World.start st).run (schedule ++ (t, s) :: schedule')).2)).length < 2 ^ 64)
    (hbegins : s.begins = some writable) (hunused : ((World.start st).run schedule).1.txs t = .unused) :
    Since kindCall ((Db.start st.quads).run kindCall (viewSchedule schedule)) t writable
      ((Db.start st.quads).run kindCall (viewSchedule (schedule ++ (t, s) :: schedule'))) := by
  have hgrows := (commits_run (World.start st) schedule ((t, s) :: schedule')).length_le
  obtain ⟨hsim, -⟩ := sim_run st schedule (by omega)
  have hinv := inv_run kindCall st.quads (viewSchedule schedule)
  have hunused' : ((Db.start st.quads).run kindCall (viewSchedule schedule)).1.txs t = .unused := by
    have hstatus := hsim.txs t
    rw [hunused] at hstatus
    generalize ((Db.start st.quads).run kindCall (viewSchedule schedule)).1.txs t = b at hstatus
    cases hstatus
    rfl
  have hview : s.view = .begin writable := by
    cases s <;> cases hbegins <;> rfl
  have hsplit : (Db.start st.quads).run kindCall (viewSchedule (schedule ++ (t, s) :: schedule')) =
      (viewSchedule schedule').foldl (Db.advance kindCall)
        (Db.advance kindCall ((Db.start st.quads).run kindCall (viewSchedule schedule)) (t, .begin writable)) := by
    simp [viewSchedule, Db.run, List.foldl_append, hview]
  rw [hsplit]
  refine foldl_advance (I := Since kindCall _ t writable) _ (fun _ _ _ _ _ hsince htakes => hsince.takes htakes) ?_
  unfold Db.advance Db.step
  rw [hunused']
  exact Since.begins (hinv : Inv kindCall st.quads (_, _)) hunused' writable

/-- Whatever the interleaving of transactions on one store, as long as the version counter does not wrap: the
committed set, and every value returned inside the writers whose commit was accepted, are those of running exactly
these writers one after the other in commit order on a plain set of quads. Every transaction answers from the set
committed when it began and its own writes. A writer's commit reports a conflict exactly when another writer's commit
was accepted after it began. Nothing else changes the store. -/
theorem memStore_serialisable (st : MemState) (schedule : List (Nat × Step))
    (hroom : st.version.toNat + (commits (view ((World.start st).run schedule).2)).length < 2 ^ 64) :
    let s := (World.start st).run schedule
    runTxs plainCall st.quads ((commits (view s.2)).map (callsOf · (view s.2))) =
        ((commits (view s.2)).map (answersOf · (view s.2)), s.1.store.quads) ∧
      (∀ before t step after writable, schedule = before ++ (t, step) :: after → step.begins = some writable →
        ((World.start st).run before).1.txs t = .unused →
        answersOf t (view s.2) =
          (runCalls (kindCall writable) ((World.start st).run before).1.store.quads (callsOf t (view s.2))).1) ∧
      (∀ before t after r w', schedule = before ++ (t, .beginWrite) :: after →
        ((World.start st).run before).1.txs t = .unused → s.1.step t .commit = some (r, w') →
        (r = .ended (.error .transactionConflict) ∧
            ∃ t' ∈ commits (view s.2), t' ∉ commits (view ((World.start st).run before).2)) ∨
          (r = .ended (.ok ()) ∧ ∀ t' ∈ commits (view s.2), t' ∈ commits (view ((World.start st).run before).2))) ∧
      ∀ t step r w', s.1.step t step = some (r, w') → w'.store = s.1.store ∨
        step = .commit ∧ r = .ended (.ok ()) ∧ ∃ tx, s.1.txs t = .active tx ∧ tx.writable = true := by
  intro s
  obtain ⟨hsim, hview⟩ := sim_run st schedule hroom
  have hinv := inv_run kindCall st.quads (viewSchedule schedule)
  have hbefore : ∀ {before rest}, schedule = before ++ rest →
      Sim st ((World.start st).run before).1 ((Db.start st.quads).run kindCall (viewSchedule before)).1 ∧
        view ((World.start st).run before).2 = ((Db.start st.quads).run kindCall (viewSchedule before)).2 := by
    rintro before rest rfl
    have hgrows := (commits_run (World.start st) before rest).length_le
    exact sim_run st before (by omega)
  refine ⟨?_, ?_, ?_, fun t step r w' hstep => World.step_store hstep⟩
  · have hserial := serializable kindCall st.quads (viewSchedule schedule) rfl
    rw [← hview, ← hsim.quads] at hserial
    exact hserial
  · intro before t step after writable hschedule hbegins hunused
    have hdata := (hbefore hschedule).1.quads
    subst hschedule
    have hsince := since_run hroom hbegins hunused
    rw [hview, hdata]
    exact hsince.answers.symm
  · intro before t after r w' hschedule hunused hstep
    obtain ⟨-, hview₁⟩ := hbefore hschedule
    have hinv₁ := inv_run kindCall st.quads (viewSchedule before)
    have hsince : Since kindCall ((Db.start st.quads).run kindCall (viewSchedule before)) t true
        ((Db.start st.quads).run kindCall (viewSchedule schedule)) := by
      subst hschedule
      exact since_run hroom rfl hunused
    have hversion := hinv.version
    rw [← hview] at hversion
    have hsame := hsim.step (t := t) (s := .commit) (by omega) fun t tx ht =>
      (hinv.active t tx ht).base.trans_eq hinv.version.symm
    rw [hstep] at hsame
    cases hdb : Db.step kindCall ((Db.start st.quads).run kindCall (viewSchedule schedule)).1 t Step.commit.view with
    | none =>
        rw [hdb] at hsame
        exact hsame.elim
    | some result =>
        obtain ⟨r', db'⟩ := result
        rw [hdb] at hsame
        rw [hview, hview₁]
        rcases hsince.verdict hinv₁ hinv (takes_of_step hdb) with ⟨hconflict, hother⟩ | ⟨hok, hall⟩
        · rcases World.step_commit hstep with ⟨hr, -⟩ | ⟨-, hr⟩
          · exact Or.inl ⟨hr, hother⟩
          · cases hr.symm.trans (hsame.1.trans hconflict)
        · rcases World.step_commit hstep with ⟨-, hr⟩ | ⟨hr, -⟩
          · cases hr.symm.trans (hsame.1.trans hok)
          · exact Or.inr ⟨hr, hall⟩

/-- Of two writers that overlap the second is refused, and its insert is lost with it. -/
theorem memStore_serialisable_two_writers :
    let a : Quad := .triple (.named ⟨"urn:a"⟩) ⟨"urn:p"⟩ (.named ⟨"urn:b"⟩)
    let b : Quad := .triple (.named ⟨"urn:b"⟩) ⟨"urn:p"⟩ (.named ⟨"urn:a"⟩)
    let before : List (Nat × Step) := [(0, .beginWrite)]
    let after : List (Nat × Step) := [(0, .call (.insert a)), (1, .call (.insert b)), (1, .call (.contains a)), (0, .commit)]
    let s := (World.start ⟨0, ∅⟩).run (before ++ (1, .beginWrite) :: after)
    runTxs plainCall ∅ [[.insert a]] = ([[.flag true]], s.1.store.quads) ∧
      answersOf 1 (view s.2) = [.flag true, .flag false] ∧
      ∃ w', s.1.step 1 .commit = some (.ended (.error .transactionConflict), w') := by
  intro a b before after s
  have hcommits : commits (view s.2) = [0] := by decide +kernel
  obtain ⟨hserial, hreads, hverdict, -⟩ := memStore_serialisable ⟨0, ∅⟩ (before ++ (1, .beginWrite) :: after)
    (by decide +kernel)
  refine ⟨?_, ?_, ?_⟩
  · have hcalls : callsOf 0 (view s.2) = [.insert a] := by decide +kernel
    have hanswers : answersOf 0 (view s.2) = [.flag true] := by decide +kernel
    have hrun : runTxs plainCall ∅ ((commits (view s.2)).map (callsOf · (view s.2))) =
        ((commits (view s.2)).map (answersOf · (view s.2)), s.1.store.quads) := hserial
    simpa only [hcommits, List.map_cons, List.map_nil, hcalls, hanswers] using hrun
  · exact (hreads before 1 .beginWrite after true rfl rfl rfl).trans (by decide +kernel)
  · have hsome : (s.1.step 1 .commit).isSome = true := by decide +kernel
    obtain ⟨⟨r, w'⟩, hstep⟩ := Option.isSome_iff_exists.mp hsome
    rcases hverdict before 1 after r w' rfl rfl hstep with ⟨rfl, -⟩ | ⟨-, hall⟩
    · exact ⟨w', hstep⟩
    · exact absurd (hall 0 (hcommits ▸ List.mem_singleton_self 0)) (by decide +kernel)

end Semanticore.Testkit
