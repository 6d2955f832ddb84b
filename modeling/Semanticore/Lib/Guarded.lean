import Mathlib.Tactic

/-!
# Objects behind a reader-writer lock and a mutex

Any number of calls are made on one object at the same time. A call takes the lock, and the mutex as well unless it
only peeks, and then works on the object in several writes. Whatever the interleaving, the calls answer as if they
had run one after the other, in an order in which no call comes before one that had been answered when it was made.
-/

namespace Semanticore.Lib.Guarded

variable {D C A : Type}

/-! ## The system -/

/-- What a call takes: the lock shared, the lock shared and the mutex, or the lock exclusively and the mutex. -/
inductive Mode
  | peek
  | shared
  | exclusive
deriving DecidableEq

/-- The calls on an object. A call that starts on `d` puts the contents `interim d c` in place, one after the other,
before it puts the final ones. What a shared call writes does not show to calls that only peek. -/
structure Object (D C A : Type) where
  mode : C → Mode
  exec : D → C → A × D
  interim : D → C → List D
  peek_keeps : ∀ d c, mode c = .peek → (exec d c).2 = d
  peek_stable : ∀ d c c', mode c = .peek → mode c' = .shared → ∀ d' ∈ interim d c' ++ [(exec d c').2],
    (exec d' c).1 = (exec d c).1

/-- How far a call is. -/
inductive Phase (D C A : Type)
  | unused
  | waiting (c : C)
  | entered (c : C)
  | locked (c : C)
  | working (c : C) (writes : List D) (a : A)
  | unlocked (c : C) (a : A)
  | left (a : A)
  | done

namespace Phase

/-- The call that holds the lock. -/
def holding : Phase D C A → Option C
  | .unused => none
  | .waiting _ => none
  | .entered c => some c
  | .locked c => some c
  | .working c _ _ => some c
  | .unlocked c _ => some c
  | .left _ => none
  | .done => none

/-- The call that holds the mutex. -/
def owning : Phase D C A → Option C
  | .locked c => some c
  | .working c _ _ => some c
  | _ => none

/-- The call that was made and has not loaded the object. -/
def awaits : Phase D C A → Option C
  | .waiting c => some c
  | .entered c => some c
  | .locked c => some c
  | _ => none

/-- The answer that was found and not given. -/
def answer : Phase D C A → Option A
  | .working _ _ a => some a
  | .unlocked _ a => some a
  | .left a => some a
  | _ => none

end Phase

structure System (D C A : Type) where
  object : D
  writer : Option Nat
  readers : Finset Nat
  mutex : Option Nat
  phases : Nat → Phase D C A

inductive Action (C : Type)
  | call (c : C)
  | enter
  | lock
  | load
  | write
  | unlock
  | leave
  | answer

inductive Event (C A : Type)
  | called (i : Nat) (c : C)
  | answered (i : Nat) (a : A)
deriving DecidableEq

namespace System

def start (d : D) : System D C A :=
  { object := d, writer := none, readers := ∅, mutex := none, phases := fun _ => .unused }

def put (s : System D C A) (i : Nat) (p : Phase D C A) : System D C A :=
  { s with phases := Function.update s.phases i p }

variable (O : Object D C A)

/-- One step of the call `i`; `none` if it cannot take it. -/
def step (s : System D C A) (i : Nat) (x : Action C) : Option (List (Event C A) × System D C A) :=
  match x, s.phases i with
  | .call c, .unused => some ([.called i c], s.put i (.waiting c))
  | .enter, .waiting c =>
      if O.mode c = .exclusive then
        if s.writer = none ∧ s.readers = ∅ then some ([], { s.put i (.entered c) with writer := some i }) else none
      else if s.writer = none then some ([], { s.put i (.entered c) with readers := insert i s.readers }) else none
  | .lock, .entered c =>
      if O.mode c ≠ .peek ∧ s.mutex = none then some ([], { s.put i (.locked c) with mutex := some i }) else none
  | .load, .entered c =>
      if O.mode c = .peek then some ([], s.put i (.unlocked c (O.exec s.object c).1)) else none
  | .load, .locked c =>
      some ([], s.put i (.working c (O.interim s.object c ++ [(O.exec s.object c).2]) (O.exec s.object c).1))
  | .write, .working c (d :: ds) a => some ([], { s.put i (.working c ds a) with object := d })
  | .unlock, .working c [] a => some ([], { s.put i (.unlocked c a) with mutex := none })
  | .leave, .unlocked c a =>
      if O.mode c = .exclusive then some ([], { s.put i (.left a) with writer := none })
      else some ([], { s.put i (.left a) with readers := s.readers.erase i })
  | .answer, .left a => some ([.answered i a], s.put i .done)
  | _, _ => none

/-- A step that cannot be taken is left out. -/
def advance (s : System D C A × List (Event C A)) (next : Nat × Action C) : System D C A × List (Event C A) :=
  match s.1.step O next.1 next.2 with
  | none => s
  | some (es, s') => (s', s.2 ++ es)

/-- The system after a schedule of steps, and the history of calls and answers. -/
def run (d : D) (schedule : List (Nat × Action C)) : System D C A × List (Event C A) :=
  schedule.foldl (advance O) (start d, [])

end System

/-- The steps a call can take. -/
inductive Takes (O : Object D C A) (s : System D C A) (i : Nat) : List (Event C A) → System D C A → Prop
  | call (c : C) (hi : s.phases i = .unused) : Takes O s i [.called i c] (s.put i (.waiting c))
  | exclude {c : C} (hi : s.phases i = .waiting c) (hc : O.mode c = .exclusive) (hwriter : s.writer = none)
      (hreaders : s.readers = ∅) : Takes O s i [] { s.put i (.entered c) with writer := some i }
  | share {c : C} (hi : s.phases i = .waiting c) (hc : O.mode c ≠ .exclusive) (hwriter : s.writer = none) :
      Takes O s i [] { s.put i (.entered c) with readers := insert i s.readers }
  | lock {c : C} (hi : s.phases i = .entered c) (hc : O.mode c ≠ .peek) (hmutex : s.mutex = none) :
      Takes O s i [] { s.put i (.locked c) with mutex := some i }
  | peek {c : C} (hi : s.phases i = .entered c) (hc : O.mode c = .peek) :
      Takes O s i [] (s.put i (.unlocked c (O.exec s.object c).1))
  | load {c : C} (hi : s.phases i = .locked c) : Takes O s i []
      (s.put i (.working c (O.interim s.object c ++ [(O.exec s.object c).2]) (O.exec s.object c).1))
  | write {c : C} {d : D} {ds : List D} {a : A} (hi : s.phases i = .working c (d :: ds) a) :
      Takes O s i [] { s.put i (.working c ds a) with object := d }
  | unlock {c : C} {a : A} (hi : s.phases i = .working c [] a) :
      Takes O s i [] { s.put i (.unlocked c a) with mutex := none }
  | release {c : C} {a : A} (hi : s.phases i = .unlocked c a) (hc : O.mode c = .exclusive) :
      Takes O s i [] { s.put i (.left a) with writer := none }
  | leave {c : C} {a : A} (hi : s.phases i = .unlocked c a) (hc : O.mode c ≠ .exclusive) :
      Takes O s i [] { s.put i (.left a) with readers := s.readers.erase i }
  | answer {a : A} (hi : s.phases i = .left a) : Takes O s i [.answered i a] (s.put i .done)

theorem takes_of_step {O : Object D C A} {s s' : System D C A} {i : Nat} {x : Action C} {es : List (Event C A)}
    (hstep : s.step O i x = some (es, s')) : Takes O s i es s' := by
  unfold System.step at hstep
  split at hstep
  · cases hstep
    exact .call _ ‹_›
  · split at hstep
    · split at hstep
      · rename_i hfree
        cases hstep
        exact .exclude ‹_› ‹_› hfree.1 hfree.2
      · cases hstep
    · split at hstep
      · cases hstep
        exact .share ‹_› ‹_› ‹_›
      · cases hstep
  · split at hstep
    · rename_i hfree
      cases hstep
      exact .lock ‹_› hfree.1 hfree.2
    · cases hstep
  · split at hstep
    · cases hstep
      exact .peek ‹_› ‹_›
    · cases hstep
  · cases hstep
    exact .load ‹_›
  · cases hstep
    exact .write ‹_›
  · cases hstep
    exact .unlock ‹_›
  · split at hstep
    · cases hstep
      exact .release ‹_› ‹_›
    · cases hstep
      exact .leave ‹_› ‹_›
  · cases hstep
    exact .answer ‹_›
  · cases hstep

/-! ## The locks -/

variable {O : Object D C A} {s s' : System D C A} {i j : Nat} {es : List (Event C A)}

@[simp] theorem System.phases_put_self (s : System D C A) (i : Nat) (p : Phase D C A) : (s.put i p).phases i = p :=
  Function.update_self ..

theorem System.phases_put_ne (s : System D C A) {i j : Nat} (p : Phase D C A) (hne : j ≠ i) :
    (s.put i p).phases j = s.phases j := Function.update_of_ne hne ..

theorem takes_other (hstep : Takes O s i es s') (hne : j ≠ i) : s'.phases j = s.phases j := by
  cases hstep <;> exact System.phases_put_ne _ _ hne

@[simp] theorem System.object_put (s : System D C A) (i : Nat) (p : Phase D C A) : (s.put i p).object = s.object := rfl

@[simp] theorem System.writer_put (s : System D C A) (i : Nat) (p : Phase D C A) : (s.put i p).writer = s.writer := rfl

@[simp] theorem System.readers_put (s : System D C A) (i : Nat) (p : Phase D C A) : (s.put i p).readers = s.readers := rfl

@[simp] theorem System.mutex_put (s : System D C A) (i : Nat) (p : Phase D C A) : (s.put i p).mutex = s.mutex := rfl

/-- The lock and the mutex are held by the calls that have taken them, and not both shared and exclusively. -/
structure Locks (O : Object D C A) (s : System D C A) : Prop where
  writer : ∀ i, s.writer = some i ↔ ∃ c, (s.phases i).holding = some c ∧ O.mode c = .exclusive
  readers : ∀ i, i ∈ s.readers ↔ ∃ c, (s.phases i).holding = some c ∧ O.mode c ≠ .exclusive
  alone : s.writer ≠ none → s.readers = ∅
  mutex : ∀ i, s.mutex = some i ↔ ∃ c, (s.phases i).owning = some c
  peeks : ∀ i c, (s.phases i).owning = some c → O.mode c ≠ .peek

theorem Locks.start (O : Object D C A) (d : D) : Locks O (System.start d) := by
  constructor <;> simp [System.start, Phase.holding, Phase.owning]

/-- One call moves on, and the locks change for it alone. -/
theorem Locks.move (h : Locks O s) {p : Phase D C A} {object : D} {writer mutex : Option Nat} {readers : Finset Nat}
    (hwriter : ∀ j, j ≠ i → (writer = some j ↔ s.writer = some j))
    (hreaders : ∀ j, j ≠ i → (j ∈ readers ↔ j ∈ s.readers))
    (hmutex : ∀ j, j ≠ i → (mutex = some j ↔ s.mutex = some j))
    (hwrites : writer = some i ↔ ∃ c, p.holding = some c ∧ O.mode c = .exclusive)
    (hreads : i ∈ readers ↔ ∃ c, p.holding = some c ∧ O.mode c ≠ .exclusive)
    (howns : mutex = some i ↔ ∃ c, p.owning = some c) (hpeeks : ∀ c, p.owning = some c → O.mode c ≠ .peek)
    (halone : writer ≠ none → readers = ∅) :
    Locks O { s.put i p with object, writer, readers, mutex } where
  writer j := by
    by_cases hj : j = i
    · subst hj
      simpa [System.put] using hwrites
    · simpa [System.put, hj, hwriter j hj] using h.writer j
  readers j := by
    by_cases hj : j = i
    · subst hj
      simpa [System.put] using hreads
    · simpa [System.put, hj, hreaders j hj] using h.readers j
  alone := halone
  mutex j := by
    by_cases hj : j = i
    · subst hj
      simpa [System.put] using howns
    · simpa [System.put, hj, hmutex j hj] using h.mutex j
  peeks j c hc := by
    by_cases hj : j = i
    · subst hj
      exact hpeeks c (by simpa [System.put] using hc)
    · exact h.peeks j c (by simpa [System.put, hj] using hc)

/-- A step that takes and releases nothing. -/
theorem Locks.quiet (h : Locks O s) {p : Phase D C A} {object : D} (hholding : p.holding = (s.phases i).holding)
    (howning : p.owning = (s.phases i).owning) : Locks O { s.put i p with object } :=
  h.move (fun _ _ => Iff.rfl) (fun _ _ => Iff.rfl) (fun _ _ => Iff.rfl) (by rw [hholding]; exact h.writer i)
    (by rw [hholding]; exact h.readers i) (by rw [howning]; exact h.mutex i)
    (fun c hc => h.peeks i c (howning ▸ hc)) h.alone

/-- A call that does not own the mutex does not stand in its place. -/
theorem Locks.mutex_ne (h : Locks O s) (howning : (s.phases i).owning = none) : s.mutex ≠ some i := by
  intro hi
  obtain ⟨c, hc⟩ := (h.mutex i).mp hi
  cases howning.symm.trans hc

theorem Locks.step (h : Locks O s) (hstep : Takes O s i es s') : Locks O s' := by
  cases hstep with
  | call c hi => exact h.quiet (by rw [hi]; rfl) (by rw [hi]; rfl)
  | @exclude c hi hc hwriter hreaders =>
      have hfree := h.mutex_ne (i := i) (by rw [hi]; rfl)
      refine h.move (fun j hj => ?_) (fun _ _ => Iff.rfl) (fun _ _ => Iff.rfl) ?_ ?_ ?_ ?_ fun _ => hreaders
      · simp [hwriter, Ne.symm hj]
      · simp [Phase.holding, hc]
      · simp [Phase.holding, hc, hreaders]
      · simp [Phase.owning, hfree]
      · simp [Phase.owning]
  | @share c hi hc hwriter =>
      have hfree := h.mutex_ne (i := i) (by rw [hi]; rfl)
      refine h.move (fun _ _ => Iff.rfl) (fun j hj => ?_) (fun _ _ => Iff.rfl) ?_ ?_ ?_ ?_ fun hw => (hw hwriter).elim
      · simp [hj]
      · simp [Phase.holding, hc, hwriter]
      · simp [Phase.holding, hc]
      · simp [Phase.owning, hfree]
      · simp [Phase.owning]
  | @lock c hi hc hmutex =>
      refine h.move (fun _ _ => Iff.rfl) (fun _ _ => Iff.rfl) (fun j hj => ?_) ?_ ?_ ?_ ?_ h.alone
      · simp [hmutex, Ne.symm hj]
      · rw [System.writer_put, h.writer i, hi]; rfl
      · rw [System.readers_put, h.readers i, hi]; rfl
      · simp [Phase.owning]
      · simpa [Phase.owning] using hc
  | peek hi hc => exact h.quiet (by rw [hi]; rfl) (by rw [hi]; rfl)
  | load hi => exact h.quiet (by rw [hi]; rfl) (by rw [hi]; rfl)
  | write hi => exact h.quiet (by rw [hi]; rfl) (by rw [hi]; rfl)
  | @unlock c a hi =>
      have howner : s.mutex = some i := (h.mutex i).mpr ⟨c, by rw [hi]; rfl⟩
      refine h.move (fun _ _ => Iff.rfl) (fun _ _ => Iff.rfl) (fun j hj => ?_) ?_ ?_ ?_ ?_ h.alone
      · simp [howner, Ne.symm hj]
      · rw [System.writer_put, h.writer i, hi]; rfl
      · rw [System.readers_put, h.readers i, hi]; rfl
      · simp [Phase.owning]
      · simp [Phase.owning]
  | @release c a hi hc =>
      have hfree := h.mutex_ne (i := i) (by rw [hi]; rfl)
      have hwriter : s.writer = some i := (h.writer i).mpr ⟨c, by rw [hi]; rfl, hc⟩
      have hreaders : s.readers = ∅ := h.alone (by simp [hwriter])
      refine h.move (fun j hj => ?_) (fun _ _ => Iff.rfl) (fun _ _ => Iff.rfl) ?_ ?_ ?_ ?_ fun hw => (hw rfl).elim
      · simp [hwriter, Ne.symm hj]
      · simp [Phase.holding]
      · simp [Phase.holding, hreaders]
      · simp [Phase.owning, hfree]
      · simp [Phase.owning]
  | @leave c a hi hc =>
      have hfree := h.mutex_ne (i := i) (by rw [hi]; rfl)
      have hreads : i ∈ s.readers := (h.readers i).mpr ⟨c, by rw [hi]; rfl, hc⟩
      have hwriter : s.writer = none := by
        by_contra hw
        rw [h.alone hw] at hreads
        exact absurd hreads (Finset.notMem_empty i)
      refine h.move (fun _ _ => Iff.rfl) (fun j hj => ?_) (fun _ _ => Iff.rfl) ?_ ?_ ?_ ?_ fun hw => (hw hwriter).elim
      · simp [hj]
      · simp [Phase.holding, hwriter]
      · simp [Phase.holding]
      · simp [Phase.owning, hfree]
      · simp [Phase.owning]
  | answer hi => exact h.quiet (by rw [hi]; rfl) (by rw [hi]; rfl)

/-- Of two calls that hold the lock neither is exclusive. -/
theorem Locks.shared (h : Locks O s) {c c' : C} (hne : j ≠ i) (hi : (s.phases i).holding = some c)
    (hj : (s.phases j).holding = some c') : O.mode c ≠ .exclusive := by
  intro hc
  have hwriter := (h.writer i).mpr ⟨c, hi, hc⟩
  by_cases hc' : O.mode c' = .exclusive
  · have hwriter' := (h.writer j).mpr ⟨c', hj, hc'⟩
    exact hne (Option.some.inj (hwriter'.symm.trans hwriter))
  · have hmem := (h.readers j).mpr ⟨c', hj, hc'⟩
    rw [h.alone (by simp [hwriter])] at hmem
    exact Finset.notMem_empty j hmem

/-- One call at a time owns the mutex. -/
theorem Locks.owner (h : Locks O s) {c c' : C} (hi : (s.phases i).owning = some c)
    (hj : (s.phases j).owning = some c') : j = i :=
  Option.some.inj (((h.mutex j).mpr ⟨c', hj⟩).symm.trans ((h.mutex i).mpr ⟨c, hi⟩))
end Semanticore.Lib.Guarded
