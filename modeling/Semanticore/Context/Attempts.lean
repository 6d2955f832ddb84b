import Semanticore.Context.Lemmas.Query

/-!
# Storage transactions in order

Where the Session stands when a program issues each of its storage transactions. If one of them fails the program
stops there; otherwise it ends as if none could fail.
-/

namespace Semanticore.Context
open Semanticore.Core Semanticore.Lib

/-! ## Failing transactions -/

/-- How many transactions end well before the first that fails. -/
def firstFail (fates : List Fate) : Option Nat := fates.findIdx? (· = .fail)

/-- The point at which a transaction fails, if one of those issued at `points` does. -/
def stopped {α : Type} : List Fate → List α → Option α
  | _, [] => none
  | [], _ :: _ => none
  | .fail :: _, a :: _ => some a
  | .commit :: fates, _ :: points => stopped fates points
termination_by structural _ points => points

section
variable {α : Type} {fates : List Fate} {points points' : List α} {a : α}

theorem stopped_eq : stopped fates points = (firstFail fates).bind (points[·]?) := by
  induction fates generalizing points with
  | nil => cases points <;> rfl
  | cons fate fates ih =>
      cases points with
      | nil => cases fate <;> simp [stopped]
      | cons a points =>
          cases fate with
          | fail => simp [stopped, firstFail, List.findIdx?_cons]
          | commit =>
              simp only [stopped, ih, firstFail, List.findIdx?_cons]
              cases List.findIdx? (fun x => decide (x = Fate.fail)) fates <;> simp

theorem stopped_append : stopped fates (points ++ points') =
    (stopped fates points).or (stopped (fates.drop points.length) points') := by
  induction points generalizing fates with
  | nil => rfl
  | cons a points ih =>
      cases fates with
      | nil => cases points' <;> rfl
      | cons fate fates => cases fate with
          | fail => rfl
          | commit => exact ih

theorem stopped_eq_some : stopped fates points = some a ↔ ∃ j, firstFail fates = some j ∧ points[j]? = some a := by
  rw [stopped_eq, Option.bind_eq_some_iff]

theorem stopped_eq_none : stopped fates points = none ↔ ∀ j, firstFail fates = some j → points.length ≤ j := by
  rw [stopped_eq, Option.bind_eq_none_iff]
  simp only [List.getElem?_eq_none_iff]

end

/-- Without failures nothing stops. -/
theorem stopped_clean {α : Type} {ev : Event} {points : List α} (h : ev.Clean) : stopped ev.fates points = none := by
  have hnone : firstFail ev.fates = none := by
    simp only [firstFail, List.findIdx?_eq_none_iff, decide_eq_false_iff_not]
    intro f hf
    simp [h f hf]
  rw [stopped_eq, hnone, Option.bind_none]

/-! ## Attempts -/

/-- A Session and its clock. -/
structure Moment where
  session : Session
  elapsed : List Duration
  now : Instant

namespace Moment

def world (m : Moment) (fates : List Fate) : World := ⟨m.session, fates, m.elapsed, m.now⟩

/-- What the next reading of the clock gives. -/
def reading (m : Moment) : Instant := m.now + m.elapsed.headD 0

/-- After a reading of the clock. -/
def tick (m : Moment) : Moment := { m with elapsed := m.elapsed.tail, now := m.reading }

def put (m : Moment) (σ : Session) : Moment := { m with session := σ }

end Moment

/-- The Session and the clock of a world. -/
def World.moment (w : World) : Moment := ⟨w.session, w.elapsed, w.now⟩

/-- The program issues its transactions at `points`. If one fails the program ends there with the error of the storage;
otherwise it gives `r` and ends in `m'`. -/
def Attempts {α : Type} (x : SessionM α) (m : Moment) (points : List Session) (r : Except Halt α) (m' : Moment) : Prop :=
  ∀ fates, match stopped fates points with
    | some σ => ∃ w, x.run.run (m.world fates) = (.error (.err .storage), w) ∧ w.session = σ
    | none => x.run.run (m.world fates) = (r, m'.world (fates.drop points.length))

namespace Attempts

variable {α β : Type} {x : SessionM α} {f : α → SessionM β} {m m' m'' : Moment} {points points' : List Session}
  {r : Except Halt β} {fates : List Fate} {σ : Session}

theorem fails {r : Except Halt α} (h : Attempts x m points r m') (hs : stopped fates points = some σ) :
    ∃ w, x.run.run (m.world fates) = (.error (.err .storage), w) ∧ w.session = σ := by
  have hfates := h fates
  rw [hs] at hfates
  exact hfates

theorem ends {r : Except Halt α} (h : Attempts x m points r m') (hs : stopped fates points = none) :
    x.run.run (m.world fates) = (r, m'.world (fates.drop points.length)) := by
  have hfates := h fates
  rw [hs] at hfates
  exact hfates

theorem intro {r : Except Halt α} (hfails : ∀ fates σ, stopped fates points = some σ →
      ∃ w, x.run.run (m.world fates) = (.error (.err .storage), w) ∧ w.session = σ)
    (hends : ∀ fates, stopped fates points = none → x.run.run (m.world fates) = (r, m'.world (fates.drop points.length))) :
    Attempts x m points r m' := by
  intro fates
  split
  · exact hfails fates _ ‹_›
  · exact hends fates ‹_›

/-! ## Rules -/

theorem quiet {r : Except Halt α} (h : ∀ fates, x.run.run (m.world fates) = (r, m'.world fates)) :
    Attempts x m [] r m' := by
  refine intro (fun fates σ hs => ?_) fun fates _ => h fates
  obtain ⟨j, -, hj⟩ := stopped_eq_some.mp hs
  cases hj

theorem bind {a : α} (hx : Attempts x m points (.ok a) m') (hf : Attempts (f a) m' points' r m'') :
    Attempts (x >>= f) m (points ++ points') r m'' := by
  refine intro (fun fates σ hs => ?_) fun fates hs => ?_
  · rw [stopped_append] at hs
    cases hfirst : stopped fates points with
    | some τ =>
        obtain ⟨w, hw, hσ⟩ := hx.fails hfirst
        rw [hfirst] at hs
        cases hs
        exact ⟨w, by rw [Runs.run_bind, hw], hσ⟩
    | none =>
        rw [hfirst, Option.none_or] at hs
        obtain ⟨w, hw, hσ⟩ := hf.fails hs
        exact ⟨w, by rw [Runs.run_bind, hx.ends hfirst]; exact hw, hσ⟩
  · rw [stopped_append, Option.or_eq_none_iff] at hs
    rw [Runs.run_bind, hx.ends hs.1]
    have hrest := hf.ends hs.2
    rw [List.drop_drop] at hrest
    rw [List.length_append]
    exact hrest

/-- An early exit that no failing transaction causes. -/
theorem bind_exit {h : Halt} (hx : Attempts x m points (.error h) m') : Attempts (x >>= f) m points (.error h) m' := by
  refine intro (fun fates σ hs => ?_) fun fates hs => ?_
  · obtain ⟨w, hw, hσ⟩ := hx.fails hs
    exact ⟨w, by rw [Runs.run_bind, hw], hσ⟩
  · rw [Runs.run_bind, hx.ends hs]

theorem ret {a : α} : Attempts (pure a) m [] (.ok a) m := quiet fun _ => rfl

theorem exit {h : Halt} : Attempts (throw h : SessionM α) m [] (.error h) m := quiet fun _ => rfl

theorem map {g : α → β} {a : α} (h : Attempts x m points (.ok a) m') : Attempts (g <$> x) m points (.ok (g a)) m' := by
  have hbind : Attempts (x >>= pure ∘ g) m (points ++ []) (.ok (g a)) m' := h.bind ret
  rw [List.append_nil] at hbind
  rw [map_eq_pure_bind]
  exact hbind

theorem map_exit {g : α → β} {h : Halt} (hx : Attempts x m points (.error h) m') :
    Attempts (g <$> x) m points (.error h) m' := by
  rw [map_eq_pure_bind]
  exact hx.bind_exit

/-- At every point the program can be stopped. -/
theorem at_point {r : Except Halt α} (h : Attempts x m points r m') (hσ : σ ∈ points) :
    ∃ fates w, x.run.run (m.world fates) = (.error (.err .storage), w) ∧ w.session = σ := by
  obtain ⟨j, hj⟩ := List.mem_iff_getElem?.mp hσ
  have hfirst : firstFail (List.replicate j .commit ++ [.fail]) = some j := by
    simp [firstFail, List.findIdx?_append, List.findIdx?_replicate]
  exact ⟨_, h.fails (stopped_eq_some.mpr ⟨j, hfirst, hj⟩)⟩

/-- What a program does wherever a transaction fails holds at every point. -/
theorem of_mem {r : Except Halt α} {S : Session → Prop} (h : Attempts x m points r m')
    (hS : ∀ fates, Runs Later x (m.world fates) (fun _ _ => True) fun _ w' => S w'.session) : ∀ σ ∈ points, S σ := by
  intro σ hσ
  obtain ⟨fates, w, hw, rfl⟩ := h.at_point hσ
  exact ((hS fates).error hw).2

end Attempts

end Semanticore.Context
