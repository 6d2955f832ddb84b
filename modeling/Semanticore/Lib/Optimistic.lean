import Mathlib.Tactic

/-!
# Optimistic transactions

Transactions work on private copies of one object. A writer's commit replaces the object by its copy, unless the
object changed version since the writer began. Whatever the interleaving, the object and all answers inside
committed writers are those of running these writers one after the other.
-/

namespace Semanticore.Lib.Optimistic

variable {D C A : Type}

/-! ## The system

`exec writable d c` is what the call `c` answers on `d` in a transaction of the given kind, and what it leaves. -/

/-- Calls one after the other. -/
def runCalls (exec : D → C → A × D) (d : D) : List C → List A × D
  | [] => ([], d)
  | c :: cs => ((exec d c).1 :: (runCalls exec (exec d c).2 cs).1, (runCalls exec (exec d c).2 cs).2)

/-- Transactions one after the other. -/
def runTxs (exec : D → C → A × D) (d : D) : List (List C) → List (List A) × D
  | [] => ([], d)
  | cs :: txs => ((runCalls exec d cs).1 :: (runTxs exec (runCalls exec d cs).2 txs).1,
      (runTxs exec (runCalls exec d cs).2 txs).2)

structure Tx (D : Type) where
  base : Nat
  writable : Bool
  working : D

inductive Status (D : Type)
  | unused
  | active (tx : Tx D)
  | ended

structure Db (D : Type) where
  version : Nat
  data : D
  txs : Nat → Status D

inductive Action (C : Type)
  | begin (writable : Bool)
  | call (c : C)
  | commit
  | abort

inductive Reply (A : Type)
  | ok
  | answer (a : A)
  | conflict

structure Event (C A : Type) where
  tx : Nat
  action : Action C
  reply : Reply A

namespace Db

def start (d : D) : Db D := { version := 0, data := d, txs := fun _ => .unused }

def set (db : Db D) (t : Nat) (s : Status D) : Db D := { db with txs := Function.update db.txs t s }

variable (exec : Bool → D → C → A × D)

/-- One step of the transaction `t`; `none` if it cannot take it. A transaction begins once and ends once. -/
def step (db : Db D) (t : Nat) (a : Action C) : Option (Reply A × Db D) :=
  match db.txs t, a with
  | .unused, .begin writable => some (.ok, db.set t (.active ⟨db.version, writable, db.data⟩))
  | .active tx, .call c =>
      some (.answer (exec tx.writable tx.working c).1,
        db.set t (.active { tx with working := (exec tx.writable tx.working c).2 }))
  | .active tx, .commit =>
      if tx.writable = false then some (.ok, db.set t .ended)
      else if db.version ≠ tx.base then some (.conflict, db.set t .ended)
      else some (.ok, { db.set t .ended with version := db.version + 1, data := tx.working })
  | .active _, .abort => some (.ok, db.set t .ended)
  | _, _ => none

/-- A step that cannot be taken is left out of the history. -/
def advance (s : Db D × List (Event C A)) (next : Nat × Action C) : Db D × List (Event C A) :=
  match s.1.step exec next.1 next.2 with
  | none => s
  | some (r, db) => (db, s.2 ++ [⟨next.1, next.2, r⟩])

/-- A schedule of steps, and the history of those that were taken. -/
def run (db : Db D) (schedule : List (Nat × Action C)) : Db D × List (Event C A) :=
  schedule.foldl (advance exec) (db, [])

end Db

/-- The steps a transaction can take. -/
inductive Takes (exec : Bool → D → C → A × D) (db : Db D) (t : Nat) : Action C → Reply A → Db D → Prop
  | begin (writable : Bool) (ht : db.txs t = .unused) :
      Takes exec db t (.begin writable) .ok (db.set t (.active ⟨db.version, writable, db.data⟩))
  | call {tx} (c : C) (ht : db.txs t = .active tx) :
      Takes exec db t (.call c) (.answer (exec tx.writable tx.working c).1)
        (db.set t (.active { tx with working := (exec tx.writable tx.working c).2 }))
  | release {tx} (ht : db.txs t = .active tx) (hreader : tx.writable = false) :
      Takes exec db t .commit .ok (db.set t .ended)
  | refuse {tx} (ht : db.txs t = .active tx) (hwriter : tx.writable = true) (hstale : db.version ≠ tx.base) :
      Takes exec db t .commit .conflict (db.set t .ended)
  | accept {tx} (ht : db.txs t = .active tx) (hwriter : tx.writable = true) (hnew : db.version = tx.base) :
      Takes exec db t .commit .ok { db.set t .ended with version := db.version + 1, data := tx.working }
  | abort {tx} (ht : db.txs t = .active tx) : Takes exec db t .abort .ok (db.set t .ended)

theorem takes_of_step {exec : Bool → D → C → A × D} {db db' : Db D} {t : Nat} {a : Action C} {r : Reply A}
    (hstep : db.step exec t a = some (r, db')) : Takes exec db t a r db' := by
  unfold Db.step at hstep
  split at hstep
  · cases hstep
    exact .begin _ ‹_›
  · cases hstep
    exact .call _ ‹_›
  · rename_i tx ht
    split at hstep
    · cases hstep
      exact .release ht ‹_›
    · rename_i hwriter
      have hwriter : tx.writable = true := by simpa using hwriter
      split at hstep
      · cases hstep
        exact .refuse ht hwriter ‹_›
      · rename_i hnew
        cases hstep
        exact .accept ht hwriter (not_not.mp hnew)
  · cases hstep
    exact .abort ‹_›
  · cases hstep

/-! ## Reading histories -/

section
variable (h : List (Event C A)) (e : Event C A) (t : Nat)

def callsOf (t : Nat) (h : List (Event C A)) : List C :=
  h.filterMap fun e => match e.action with
    | .call c => if e.tx = t then some c else none
    | _ => none

def answersOf (t : Nat) (h : List (Event C A)) : List A :=
  h.filterMap fun e => match e.reply with
    | .answer a => if e.tx = t then some a else none
    | _ => none

/-- The writers, and those of them whose commit was accepted, in commit order. -/
def scan (s : List Nat × List Nat) (e : Event C A) : List Nat × List Nat :=
  match e.action, e.reply with
  | .begin true, _ => (s.1 ++ [e.tx], s.2)
  | .commit, .ok => if e.tx ∈ s.1 then (s.1, s.2 ++ [e.tx]) else s
  | _, _ => s

def writers : List Nat := (h.foldl scan ([], [])).1

def commits : List Nat := (h.foldl scan ([], [])).2

theorem callsOf_call (c : C) (r : Reply A) : callsOf t (h ++ [⟨t, .call c, r⟩]) = callsOf t h ++ [c] := by
  simp [callsOf]

theorem answersOf_answer (a : Action C) (x : A) : answersOf t (h ++ [⟨t, a, .answer x⟩]) = answersOf t h ++ [x] := by
  simp [answersOf]

theorem callsOf_other (hne : e.tx ≠ t) : callsOf t (h ++ [e]) = callsOf t h := by
  obtain ⟨t', a, r⟩ := e
  cases a <;> simp [callsOf, hne]

theorem answersOf_other (hne : e.tx ≠ t) : answersOf t (h ++ [e]) = answersOf t h := by
  obtain ⟨t', a, r⟩ := e
  cases r <;> simp [answersOf, hne]

end

theorem runCalls_append (exec : D → C → A × D) (d : D) (cs cs' : List C) : runCalls exec d (cs ++ cs') =
    ((runCalls exec d cs).1 ++ (runCalls exec (runCalls exec d cs).2 cs').1, (runCalls exec (runCalls exec d cs).2 cs').2) := by
  induction cs generalizing d with
  | nil => rfl
  | cons c cs ih => simp [runCalls, ih]

theorem runTxs_append (exec : D → C → A × D) (d : D) (txs txs' : List (List C)) : runTxs exec d (txs ++ txs') =
    ((runTxs exec d txs).1 ++ (runTxs exec (runTxs exec d txs).2 txs').1, (runTxs exec (runTxs exec d txs).2 txs').2) := by
  induction txs generalizing d with
  | nil => rfl
  | cons cs txs ih => simp [runTxs, ih]

/-! ## The invariant -/

section
variable (exec : Bool → D → C → A × D) (d₀ : D)

/-- The object after the first `k` commits. -/
def dataAt (h : List (Event C A)) (k : Nat) : D :=
  (runTxs (exec true) d₀ (((commits h).take k).map (callsOf · h))).2

/-- An active transaction ran its calls on the object as it was when it began. -/
structure Works (h : List (Event C A)) (t : Nat) (tx : Tx D) : Prop where
  base : tx.base ≤ (commits h).length
  writer : t ∈ writers h ↔ tx.writable = true
  uncommitted : t ∉ commits h
  runs : runCalls (exec tx.writable) (dataAt exec d₀ h tx.base) (callsOf t h) = (answersOf t h, tx.working)

structure Inv (s : Db D × List (Event C A)) : Prop where
  version : s.1.version = (commits s.2).length
  serial : runTxs (exec true) d₀ ((commits s.2).map (callsOf · s.2)) = ((commits s.2).map (answersOf · s.2), s.1.data)
  nodup : (commits s.2).Nodup
  unused : ∀ t, s.1.txs t = .unused → callsOf t s.2 = [] ∧ answersOf t s.2 = [] ∧ t ∉ writers s.2
  committed : ∀ t ∈ commits s.2, s.1.txs t = .ended
  active : ∀ t tx, s.1.txs t = .active tx → Works exec d₀ s.2 t tx

end

variable {exec : Bool → D → C → A × D} {d₀ : D} {db db' : Db D} {h h' : List (Event C A)} {e : Event C A} {t t' : Nat}
  {tx : Tx D}

theorem writers_snoc (h : List (Event C A)) (e : Event C A) :
    writers (h ++ [e]) = (scan (writers h, commits h) e).1 := by
  simp [writers, commits, List.foldl_append]

theorem commits_snoc (h : List (Event C A)) (e : Event C A) :
    commits (h ++ [e]) = (scan (writers h, commits h) e).2 := by
  simp [writers, commits, List.foldl_append]

theorem commits_of_not_commit (hne : e.action ≠ .commit ∨ e.reply ≠ .ok) : commits (h ++ [e]) = commits h := by
  rw [commits_snoc]
  unfold scan
  split
  · rfl
  · rename_i ha hr
    rcases hne with hne | hne
    · exact (hne ha).elim
    · exact (hne hr).elim
  · rfl

theorem writers_of_not_begin (hne : ∀ writable, e.action ≠ .begin writable) : writers (h ++ [e]) = writers h := by
  rw [writers_snoc]
  unfold scan
  split
  · rename_i ha
    exact (hne true ha).elim
  · split <;> rfl
  · rfl

theorem mem_writers_other (hne : e.tx ≠ t) : t ∈ writers (h ++ [e]) ↔ t ∈ writers h := by
  rw [writers_snoc]
  unfold scan
  split
  · simp [Ne.symm hne]
  · split <;> rfl
  · rfl

/-- What was committed before stays as it was. -/
theorem dataAt_snoc {k : Nat} (hnot : e.tx ∉ commits h) (hgrow : commits h <+: commits (h ++ [e]))
    (hk : k ≤ (commits h).length) : dataAt exec d₀ (h ++ [e]) k = dataAt exec d₀ h k := by
  obtain ⟨rest, hrest⟩ := hgrow
  unfold dataAt
  rw [← hrest, List.take_append_of_le_length hk]
  have hcalls : ((commits h).take k).map (callsOf · (h ++ [e])) = ((commits h).take k).map (callsOf · h) :=
    List.map_congr_left fun t ht => callsOf_other h e t fun heq => hnot (heq ▸ List.mem_of_mem_take ht)
  rw [hcalls]

theorem Inv.dataAt_length (hinv : Inv exec d₀ (db, h)) : dataAt exec d₀ h (commits h).length = db.data := by
  unfold dataAt
  rw [List.take_length, hinv.serial]

theorem Works.other (hworks : Works exec d₀ h t tx) (hne : e.tx ≠ t) (hnot : e.tx ∉ commits h)
    (hcommits : commits (h ++ [e]) = commits h ∨ commits (h ++ [e]) = commits h ++ [e.tx]) :
    Works exec d₀ (h ++ [e]) t tx := by
  have hgrow : commits h <+: commits (h ++ [e]) := by
    rcases hcommits with heq | heq
    · rw [heq]
    · rw [heq]
      exact List.prefix_append ..
  refine ⟨hworks.base.trans hgrow.length_le, (mem_writers_other hne).trans hworks.writer, ?_, ?_⟩
  · rcases hcommits with heq | heq
    · rw [heq]
      exact hworks.uncommitted
    · rw [heq, List.mem_append, List.mem_singleton]
      exact fun hmem => hmem.elim hworks.uncommitted fun heq => hne heq.symm
  · rw [dataAt_snoc hnot hgrow hworks.base, callsOf_other h e t hne, answersOf_other h e t hne]
    exact hworks.runs

@[simp] theorem Db.txs_set_self (db : Db D) (t : Nat) (s : Status D) : (db.set t s).txs t = s :=
  Function.update_self ..

theorem Db.txs_set_ne (db : Db D) {t t' : Nat} (s : Status D) (hne : t ≠ t') : (db.set t s).txs t' = db.txs t' :=
  Function.update_of_ne (Ne.symm hne) ..

/-- An event that commits nothing changes one transaction only. -/
theorem Inv.quiet {s : Status D} (hinv : Inv exec d₀ (db, h)) (hnot : e.tx ∉ commits h)
    (hcommits : commits (h ++ [e]) = commits h) (hused : s ≠ .unused)
    (hactive : ∀ tx, s = .active tx → Works exec d₀ (h ++ [e]) e.tx tx) : Inv exec d₀ (db.set e.tx s, h ++ [e]) where
  version := by rw [hcommits]; exact hinv.version
  serial := by
    have hne : ∀ t ∈ commits h, e.tx ≠ t := fun t ht heq => hnot (heq ▸ ht)
    have hcalls := List.map_congr_left fun t ht => callsOf_other h e t (hne t ht)
    have hanswers := List.map_congr_left fun t ht => answersOf_other h e t (hne t ht)
    dsimp only
    rw [hcommits, hcalls, hanswers]
    exact hinv.serial
  nodup := by rw [hcommits]; exact hinv.nodup
  unused t ht := by
    by_cases hne : e.tx = t
    · subst hne
      exact (hused ((Db.txs_set_self ..).symm.trans ht)).elim
    · rw [Db.txs_set_ne _ _ hne] at ht
      dsimp only
      rw [callsOf_other h e t hne, answersOf_other h e t hne, mem_writers_other hne]
      exact hinv.unused t ht
  committed t ht := by
    rw [hcommits] at ht
    have hne : e.tx ≠ t := fun heq => hnot (heq.symm ▸ ht)
    exact (Db.txs_set_ne db s hne).trans (hinv.committed t ht)
  active t tx ht := by
    by_cases hne : e.tx = t
    · subst hne
      exact hactive tx ((Db.txs_set_self ..).symm.trans ht)
    · rw [Db.txs_set_ne _ _ hne] at ht
      exact (hinv.active t tx ht).other hne hnot (Or.inl hcommits)

theorem Inv.not_committed (hinv : Inv exec d₀ (db, h)) (ht : db.txs t ≠ .ended) : t ∉ commits h :=
  fun hmem => ht (hinv.committed t hmem)

/-- The commit of a writer that saw the newest version. -/
theorem Inv.accept (hinv : Inv exec d₀ (db, h)) (ht : db.txs t = .active tx) (hwritable : tx.writable = true)
    (hbase : db.version = tx.base) :
    Inv exec d₀ ({ db.set t .ended with version := db.version + 1, data := tx.working }, h ++ [⟨t, .commit, .ok⟩]) := by
  have hworks := hinv.active t tx ht
  have hnot : t ∉ commits h := hworks.uncommitted
  have hcommits : commits (h ++ [(⟨t, .commit, .ok⟩ : Event C A)]) = commits h ++ [t] := by
    rw [commits_snoc]
    simp [scan, hworks.writer.mpr hwritable]
  have hcalls : ∀ t', callsOf t' (h ++ [(⟨t, .commit, .ok⟩ : Event C A)]) = callsOf t' h := fun t' => by
    simp [callsOf]
  have hanswers : ∀ t', answersOf t' (h ++ [(⟨t, .commit, .ok⟩ : Event C A)]) = answersOf t' h := fun t' => by
    simp [answersOf]
  -- The writer began on the object as it is now.
  have hruns : runCalls (exec true) db.data (callsOf t h) = (answersOf t h, tx.working) := by
    rw [← hinv.dataAt_length, ← hinv.version, hbase, ← hwritable]
    exact hworks.runs
  refine ⟨?_, ?_, ?_, fun t' ht' => ?_, fun t' ht' => ?_, fun t' tx' ht' => ?_⟩
  · rw [hcommits, List.length_append]
    exact congrArg (· + 1) hinv.version
  · dsimp only
    simp only [hcommits, hcalls, hanswers, List.map_append, List.map_cons, List.map_nil, runTxs_append, hinv.serial,
      runTxs, hruns]
  · rw [hcommits]
    exact hinv.nodup.append (List.nodup_singleton t) (List.disjoint_singleton.mpr hnot)
  · have hne : t ≠ t' := fun heq => by
      subst heq
      simp at ht'
    rw [hcalls, hanswers, mem_writers_other hne]
    exact hinv.unused t' ((Db.txs_set_ne db .ended hne).symm.trans ht')
  · rw [hcommits, List.mem_append, List.mem_singleton] at ht'
    by_cases hne : t = t'
    · subst hne
      exact Db.txs_set_self ..
    · exact (Db.txs_set_ne db .ended hne).trans (hinv.committed t' (ht'.resolve_right (Ne.symm hne)))
  · have hne : t ≠ t' := fun heq => by
      subst heq
      simp at ht'
    exact (hinv.active t' tx' ((Db.txs_set_ne db .ended hne).symm.trans ht')).other hne hnot (Or.inr hcommits)

theorem Inv.started {writable : Bool} (hinv : Inv exec d₀ (db, h)) (ht : db.txs t = .unused) :
    Works exec d₀ (h ++ [⟨t, .begin writable, .ok⟩]) t ⟨db.version, writable, db.data⟩ := by
  obtain ⟨hcalls, hanswers, hwriters⟩ := hinv.unused t ht
  have hnot : t ∉ commits h := hinv.not_committed (by simp [ht])
  have hcommits : commits (h ++ [(⟨t, .begin writable, .ok⟩ : Event C A)]) = commits h :=
    commits_of_not_commit (Or.inl (by simp))
  have hsame : dataAt exec d₀ (h ++ [(⟨t, .begin writable, .ok⟩ : Event C A)]) db.version = db.data := by
    rw [dataAt_snoc hnot (by rw [hcommits]) hinv.version.le, hinv.version, hinv.dataAt_length]
  refine ⟨?_, ?_, ?_, ?_⟩
  · rw [hcommits]
    exact hinv.version.le
  · rw [writers_snoc]
    cases writable <;> simp [scan, hwriters]
  · rw [hcommits]
    exact hnot
  · have hcalls' : callsOf t (h ++ [(⟨t, .begin writable, .ok⟩ : Event C A)]) = [] := by simpa [callsOf] using hcalls
    have hanswers' : answersOf t (h ++ [(⟨t, .begin writable, .ok⟩ : Event C A)]) = [] := by
      simpa [answersOf] using hanswers
    rw [hsame, hcalls', hanswers']
    rfl

theorem Inv.called {c : C} {r : A} {working : D} (hinv : Inv exec d₀ (db, h)) (ht : db.txs t = .active tx)
    (hexec : exec tx.writable tx.working c = (r, working)) :
    Works exec d₀ (h ++ [⟨t, .call c, .answer r⟩]) t { tx with working } := by
  have hworks := hinv.active t tx ht
  have hcommits : commits (h ++ [(⟨t, .call c, .answer r⟩ : Event C A)]) = commits h :=
    commits_of_not_commit (Or.inl (by simp))
  refine ⟨?_, ?_, ?_, ?_⟩
  · rw [hcommits]
    exact hworks.base
  · rw [writers_of_not_begin (by simp)]
    exact hworks.writer
  · rw [hcommits]
    exact hworks.uncommitted
  · rw [dataAt_snoc hworks.uncommitted (by rw [hcommits]) hworks.base, callsOf_call, answersOf_answer,
      runCalls_append, hworks.runs]
    simp [runCalls, hexec]

theorem Inv.takes {a : Action C} {r : Reply A} (hinv : Inv exec d₀ (db, h)) (htakes : Takes exec db t a r db') :
    Inv exec d₀ (db', h ++ [⟨t, a, r⟩]) := by
  cases htakes with
  | «begin» writable ht =>
      have hnot : t ∉ commits h := hinv.not_committed (by simp [ht])
      refine hinv.quiet (e := ⟨t, .begin writable, .ok⟩) hnot (commits_of_not_commit (Or.inl (by simp))) (by simp) ?_
      intro tx hs
      cases hs
      exact hinv.started ht
  | call c ht =>
      have hnot : t ∉ commits h := hinv.not_committed (by simp [ht])
      refine hinv.quiet (e := ⟨t, .call c, _⟩) hnot (commits_of_not_commit (Or.inl (by simp))) (by simp) ?_
      intro tx hs
      cases hs
      exact hinv.called ht rfl
  | release ht hreader =>
      have hworks := hinv.active t _ ht
      have hcommits : commits (h ++ [(⟨t, .commit, .ok⟩ : Event C A)]) = commits h := by
        rw [commits_snoc]
        simp [scan, hworks.writer, hreader]
      exact hinv.quiet (e := ⟨t, .commit, .ok⟩) hworks.uncommitted hcommits (by simp) (by simp)
  | refuse ht hwriter hstale =>
      have hnot : t ∉ commits h := hinv.not_committed (by simp [ht])
      exact hinv.quiet (e := ⟨t, .commit, .conflict⟩) hnot (commits_of_not_commit (Or.inr (by simp))) (by simp) (by simp)
  | accept ht hwriter hnew => exact hinv.accept ht hwriter hnew
  | abort ht =>
      have hnot : t ∉ commits h := hinv.not_committed (by simp [ht])
      exact hinv.quiet (e := ⟨t, .abort, .ok⟩) hnot (commits_of_not_commit (Or.inl (by simp))) (by simp) (by simp)

/-! ## Runs -/

variable {s s₁ : Db D × List (Event C A)}

theorem advance_cases (s : Db D × List (Event C A)) (next : Nat × Action C) : Db.advance exec s next = s ∨
    ∃ r db, Takes exec s.1 next.1 next.2 r db ∧ Db.advance exec s next = (db, s.2 ++ [⟨next.1, next.2, r⟩]) := by
  unfold Db.advance
  cases hstep : s.1.step exec next.1 next.2 with
  | none => exact Or.inl rfl
  | some result => exact Or.inr ⟨_, _, takes_of_step hstep, rfl⟩

/-- What every step keeps holds after any schedule. -/
theorem foldl_advance {I : Db D × List (Event C A) → Prop} (schedule : List (Nat × Action C))
    (hstep : ∀ s t a r db, I s → Takes exec s.1 t a r db → I (db, s.2 ++ [⟨t, a, r⟩])) (hs : I s) :
    I (schedule.foldl (Db.advance exec) s) := by
  induction schedule generalizing s with
  | nil => exact hs
  | cons next schedule ih =>
      refine ih ?_
      rcases advance_cases s next with heq | ⟨r, db, htakes, heq⟩
      · rw [heq]
        exact hs
      · rw [heq]
        exact hstep s next.1 next.2 r db hs htakes

theorem inv_start (d : D) : Inv exec d (Db.start d, ([] : List (Event C A))) := by
  refine ⟨rfl, rfl, .nil, fun _ _ => ⟨rfl, rfl, List.not_mem_nil⟩, fun t ht => ?_, fun t tx ht => ?_⟩
  · exact (List.not_mem_nil ht).elim
  · cases ht

theorem inv_run (exec : Bool → D → C → A × D) (d : D) (schedule : List (Nat × Action C)) :
    Inv exec d ((Db.start d).run exec schedule) :=
  foldl_advance (I := Inv exec d) schedule (fun _ _ _ _ _ hinv htakes => hinv.takes htakes) (inv_start d)

/-- The object, and all answers inside the writers whose commit was accepted, are those of running these writers one
after the other in commit order. -/
theorem serializable (exec : Bool → D → C → A × D) (d : D) (schedule : List (Nat × Action C))
    (hs : s = (Db.start d).run exec schedule) :
    runTxs (exec true) d ((commits s.2).map (callsOf · s.2)) = ((commits s.2).map (answersOf · s.2), s.1.data) :=
  hs ▸ (inv_run exec d schedule).serial

/-! ## One transaction from its begin on -/

/-- The transaction `t` began in `s₁`. -/
structure Since (exec : Bool → D → C → A × D) (s₁ : Db D × List (Event C A)) (t : Nat) (writable : Bool)
    (s : Db D × List (Event C A)) : Prop where
  grows : commits s₁.2 <+: commits s.2
  answers : (runCalls (exec writable) s₁.1.data (callsOf t s.2)).1 = answersOf t s.2
  used : s.1.txs t ≠ .unused
  active : ∀ tx, s.1.txs t = .active tx → tx.base = s₁.1.version ∧ tx.writable = writable ∧
    tx.working = (runCalls (exec writable) s₁.1.data (callsOf t s.2)).2

theorem commits_grow (h : List (Event C A)) (e : Event C A) : commits h <+: commits (h ++ [e]) := by
  rw [commits_snoc]
  unfold scan
  split
  · exact List.prefix_rfl
  · split
    · exact List.prefix_append ..
    · exact List.prefix_rfl
  · exact List.prefix_rfl

/-- A step of another transaction leaves this one as it is. -/
theorem Since.other {writable : Bool} {r : Reply A} {a : Action C} (hsince : Since exec s₁ t writable (db, h))
    (htakes : Takes exec db t' a r db') (hne : t' ≠ t) : Since exec s₁ t writable (db', h ++ [⟨t', a, r⟩]) := by
  have htxs : db'.txs t = db.txs t := by
    cases htakes <;> exact Db.txs_set_ne _ _ hne
  refine ⟨hsince.grows.trans (commits_grow ..), ?_, ?_, fun tx htx => ?_⟩
  · dsimp only
    rw [callsOf_other _ _ _ hne, answersOf_other _ _ _ hne]
    exact hsince.answers
  · exact htxs.trans_ne hsince.used
  · dsimp only
    rw [callsOf_other _ _ _ hne]
    exact hsince.active tx (htxs.symm.trans htx)

theorem Since.ended {writable : Bool} {a : Action C} {r : Reply A} (hsince : Since exec s₁ t writable (db, h))
    (hend : db'.txs t = .ended) (ha : ∀ c, a ≠ .call c) (hr : ∀ x, r ≠ .answer x) :
    Since exec s₁ t writable (db', h ++ [⟨t, a, r⟩]) := by
  have hcalls : callsOf t (h ++ [(⟨t, a, r⟩ : Event C A)]) = callsOf t h := by
    cases a with
    | call c => exact (ha c rfl).elim
    | _ => simp [callsOf]
  have hanswers : answersOf t (h ++ [(⟨t, a, r⟩ : Event C A)]) = answersOf t h := by
    cases r with
    | answer x => exact (hr x rfl).elim
    | _ => simp [answersOf]
  refine ⟨hsince.grows.trans (commits_grow ..), ?_, ?_, fun tx htx => ?_⟩
  · dsimp only
    rw [hcalls, hanswers]
    exact hsince.answers
  · simp [hend]
  · cases hend.symm.trans htx

theorem Since.takes {writable : Bool} {a : Action C} {r : Reply A} (hsince : Since exec s₁ t writable (db, h))
    (htakes : Takes exec db t' a r db') : Since exec s₁ t writable (db', h ++ [⟨t', a, r⟩]) := by
  by_cases hne : t' = t
  · subst hne
    cases htakes with
    | «begin» writable' ht => exact (hsince.used ht).elim
    | call c ht =>
        obtain ⟨hbase, hwritable, hworking⟩ := hsince.active _ ht
        refine ⟨hsince.grows.trans (commits_grow ..), ?_, by simp, fun tx' htx => ?_⟩
        · dsimp only
          rw [callsOf_call, answersOf_answer, runCalls_append, hsince.answers, hwritable, hworking]
          rfl
        · rw [Db.txs_set_self] at htx
          cases htx
          refine ⟨hbase, hwritable, ?_⟩
          dsimp only
          rw [callsOf_call, runCalls_append, hwritable, hworking]
          rfl
    | release ht hreader => exact hsince.ended (Db.txs_set_self ..) (by simp) (by simp)
    | refuse ht hwriter hstale => exact hsince.ended (Db.txs_set_self ..) (by simp) (by simp)
    | accept ht hwriter hnew => exact hsince.ended (Db.txs_set_self ..) (by simp) (by simp)
    | abort ht => exact hsince.ended (Db.txs_set_self ..) (by simp) (by simp)
  · exact hsince.other htakes hne

theorem Since.begins (hinv : Inv exec d₀ (db, h)) (ht : db.txs t = .unused) (writable : Bool) :
    Since exec (db, h) t writable
      (db.set t (.active ⟨db.version, writable, db.data⟩), h ++ [⟨t, .begin writable, .ok⟩]) := by
  obtain ⟨hcalls, hanswers, -⟩ := hinv.unused t ht
  have hcalls' : callsOf t (h ++ [(⟨t, .begin writable, .ok⟩ : Event C A)]) = [] := by simpa [callsOf] using hcalls
  have hanswers' : answersOf t (h ++ [(⟨t, .begin writable, .ok⟩ : Event C A)]) = [] := by
    simpa [answersOf] using hanswers
  refine ⟨commits_grow .., ?_, by simp, fun tx htx => ?_⟩
  · dsimp only
    rw [hcalls', hanswers']
    rfl
  · rw [Db.txs_set_self] at htx
    cases htx
    dsimp only
    rw [hcalls']
    exact ⟨rfl, rfl, rfl⟩

/-- A writer's commit is refused exactly when another writer's commit was accepted after it began. -/
theorem Since.verdict {r : Reply A} (hsince : Since exec s₁ t true s) (hinv₁ : Inv exec d₀ s₁)
    (hinv : Inv exec d₀ s) (htakes : Takes exec s.1 t .commit r db') :
    (r = .conflict ∧ ∃ t' ∈ commits s.2, t' ∉ commits s₁.2) ∨ (r = .ok ∧ ∀ t' ∈ commits s.2, t' ∈ commits s₁.2) := by
  obtain ⟨rest, hrest⟩ := hsince.grows
  have hversion : s.1.version = s₁.1.version + rest.length := by
    rw [hinv.version, hinv₁.version, ← hrest, List.length_append]
  cases htakes with
  | release ht hreader =>
      obtain ⟨-, hwritable, -⟩ := hsince.active _ ht
      exact (Bool.false_ne_true (hreader.symm.trans hwritable)).elim
  | refuse ht hwriter hstale =>
      obtain ⟨hbase, -, -⟩ := hsince.active _ ht
      rw [hbase, hversion] at hstale
      cases rest with
      | nil => exact (hstale rfl).elim
      | cons t' rest =>
          have hnodup : (commits s₁.2 ++ t' :: rest).Nodup := hrest ▸ hinv.nodup
          refine Or.inl ⟨rfl, t', hrest ▸ by simp, fun hmem => ?_⟩
          exact List.disjoint_of_nodup_append hnodup hmem (by simp)
  | accept ht hwriter hnew =>
      obtain ⟨hbase, -, -⟩ := hsince.active _ ht
      have hnil : rest = [] := List.length_eq_zero_iff.mp (by omega)
      rw [hnil, List.append_nil] at hrest
      exact Or.inr ⟨rfl, fun t' ht' => hrest ▸ ht'⟩

end Semanticore.Lib.Optimistic
