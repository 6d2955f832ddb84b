import Semanticore.Lib.Linearization

/-!
# Progress

The locks of a guarded object are taken in one order, and every call that holds one goes on to release it. So calls do
not wait for each other in a circle, and without new calls all of them are answered.
-/

namespace Semanticore.Lib.Guarded

variable {D C A : Type} {O : Object D C A} {s s' : System D C A} {i j : Nat} {es : List (Event C A)}

/-! ## Progress -/

/-- A step of a call that was made. -/
def Moves (O : Object D C A) (s s' : System D C A) : Prop :=
  ∃ i x es, s.phases i ≠ .unused ∧ s.step O i x = some (es, s')

theorem moves_of_takes (hstep : Takes O s i es s') (hi : s.phases i ≠ .unused) : Moves O s s' := by
  suffices ∃ x, s.step O i x = some (es, s') from this.elim fun x hx => ⟨i, x, es, hi, hx⟩
  cases hstep with
  | call c h => exact (hi h).elim
  | exclude h hc hwriter hreaders => exact ⟨.enter, by simp [System.step, h, hc, hwriter, hreaders]⟩
  | share h hc hwriter => exact ⟨.enter, by simp [System.step, h, hc, hwriter]⟩
  | lock h hc hmutex => exact ⟨.lock, by simp [System.step, h, hc, hmutex]⟩
  | peek h hc => exact ⟨.load, by simp [System.step, h, hc]⟩
  | load h => exact ⟨.load, by simp [System.step, h]⟩
  | write h => exact ⟨.write, by simp [System.step, h]⟩
  | unlock h => exact ⟨.unlock, by simp [System.step, h]⟩
  | release h hc => exact ⟨.leave, by simp [System.step, h, hc]⟩
  | leave h hc => exact ⟨.leave, by simp [System.step, h, hc]⟩
  | answer h => exact ⟨.answer, by simp [System.step, h]⟩

theorem takes_of_moves (hmoves : Moves O s s') : ∃ i es, Takes O s i es s' ∧ s.phases i ≠ .unused := by
  obtain ⟨i, x, es, hi, hstep⟩ := hmoves
  exact ⟨i, es, takes_of_step hstep, hi⟩

/-- The call that owns the mutex waits for nobody. -/
theorem owner_moves {c : C} (hi : (s.phases i).owning = some c) : ∃ s', Moves O s s' := by
  cases hp : s.phases i <;> rw [hp] at hi <;> cases hi
  case locked => exact ⟨_, moves_of_takes (.load hp) (by simp [hp])⟩
  case working ds a =>
    cases ds with
    | nil => exact ⟨_, moves_of_takes (.unlock hp) (by simp [hp])⟩
    | cons d ds => exact ⟨_, moves_of_takes (.write hp) (by simp [hp])⟩

/-- A call that holds the lock waits at most for the one that owns the mutex. -/
theorem holder_moves (hlocks : Locks O s) {c : C} (hi : (s.phases i).holding = some c) : ∃ s', Moves O s s' := by
  cases hp : s.phases i <;> rw [hp] at hi <;> cases hi
  case entered =>
    by_cases hpeek : O.mode c = .peek
    · exact ⟨_, moves_of_takes (.peek hp hpeek) (by simp [hp])⟩
    · cases hmutex : s.mutex with
      | none => exact ⟨_, moves_of_takes (.lock hp hpeek hmutex) (by simp [hp])⟩
      | some j =>
          obtain ⟨c', hj⟩ := (hlocks.mutex j).mp hmutex
          exact owner_moves hj
  case locked => exact owner_moves (i := i) (c := c) (by rw [hp]; rfl)
  case working => exact owner_moves (i := i) (c := c) (by rw [hp]; rfl)
  case unlocked a =>
    by_cases hc : O.mode c = .exclusive
    · exact ⟨_, moves_of_takes (.release hp hc) (by simp [hp])⟩
    · exact ⟨_, moves_of_takes (.leave hp hc) (by simp [hp])⟩

/-- As long as a call is not through, some call can move. -/
theorem some_moves (hlocks : Locks O s) (hunused : s.phases i ≠ .unused) (hdone : s.phases i ≠ .done) :
    ∃ s', Moves O s s' := by
  cases hp : s.phases i with
  | unused => exact (hunused hp).elim
  | done => exact (hdone hp).elim
  | left a => exact ⟨_, moves_of_takes (.answer hp) hunused⟩
  | entered c => exact holder_moves hlocks (i := i) (c := c) (by rw [hp]; rfl)
  | locked c => exact holder_moves hlocks (i := i) (c := c) (by rw [hp]; rfl)
  | working c ds a => exact holder_moves hlocks (i := i) (c := c) (by rw [hp]; rfl)
  | unlocked c a => exact holder_moves hlocks (i := i) (c := c) (by rw [hp]; rfl)
  | waiting c =>
      cases hwriter : s.writer with
      | some j =>
          obtain ⟨c', hj, -⟩ := (hlocks.writer j).mp hwriter
          exact holder_moves hlocks hj
      | none =>
          by_cases hc : O.mode c = .exclusive
          · rcases s.readers.eq_empty_or_nonempty with hreaders | ⟨j, hj⟩
            · exact ⟨_, moves_of_takes (.exclude hp hc hwriter hreaders) hunused⟩
            · obtain ⟨c', hj, -⟩ := (hlocks.readers j).mp hj
              exact holder_moves hlocks hj
          · exact ⟨_, moves_of_takes (.share hp hc hwriter) hunused⟩

/-! ## Termination -/

/-- How many stages are ahead of a call. -/
def Phase.stages : Phase D C A → Nat
  | .unused => 0
  | .waiting _ => 6
  | .entered _ => 5
  | .locked _ => 4
  | .working _ _ _ => 3
  | .unlocked _ _ => 2
  | .left _ => 1
  | .done => 0

def Phase.writes : Phase D C A → Nat
  | .working _ ds _ => ds.length
  | _ => 0

/-- What is left to do for the calls in `F`: stages, then writes. -/
def System.work (F : Finset Nat) (s : System D C A) : ℕ ×ₗ ℕ :=
  toLex (∑ i ∈ F, (s.phases i).stages, ∑ i ∈ F, (s.phases i).writes)

/-- A move brings one call forward, by a stage or by a write. -/
theorem moves_forward (hmoves : Moves O s s') : ∃ i, s.phases i ≠ .unused ∧ (∀ j, j ≠ i → s'.phases j = s.phases j) ∧
    ((s'.phases i).stages < (s.phases i).stages ∨
      (s'.phases i).stages = (s.phases i).stages ∧ (s'.phases i).writes < (s.phases i).writes) := by
  obtain ⟨i, es, hstep, hi⟩ := takes_of_moves hmoves
  refine ⟨i, hi, fun j hj => takes_other hstep hj, ?_⟩
  cases hstep with
  | call c h => exact (hi h).elim
  | write h => right; simp [System.put, h, Phase.stages, Phase.writes]
  | exclude h _ _ _ => left; simp [System.put, h, Phase.stages]
  | share h _ _ => left; simp [System.put, h, Phase.stages]
  | lock h _ _ => left; simp [System.put, h, Phase.stages]
  | peek h _ => left; simp [System.put, h, Phase.stages]
  | load h => left; simp [System.put, h, Phase.stages]
  | unlock h => left; simp [System.put, h, Phase.stages]
  | release h _ => left; simp [System.put, h, Phase.stages]
  | leave h _ => left; simp [System.put, h, Phase.stages]
  | answer h => left; simp [System.put, h, Phase.stages]

theorem work_lt {F : Finset Nat} (hF : ∀ i, i ∉ F → s.phases i = .unused) (hmoves : Moves O s s') :
    s'.work F < s.work F := by
  obtain ⟨i, hi, hrest, hforward⟩ := moves_forward hmoves
  have hmem : i ∈ F := by
    by_contra hnot
    exact hi (hF i hnot)
  have hsum : ∀ f : Phase D C A → Nat, f (s'.phases i) < f (s.phases i) →
      ∑ j ∈ F, f (s'.phases j) < ∑ j ∈ F, f (s.phases j) := by
    intro f hlt
    refine Finset.sum_lt_sum (fun j _ => ?_) ⟨i, hmem, hlt⟩
    by_cases hj : j = i
    · exact hj ▸ hlt.le
    · rw [hrest j hj]
  rw [System.work, System.work, Prod.Lex.toLex_lt_toLex]
  rcases hforward with hlt | ⟨heq, hlt⟩
  · exact Or.inl (hsum _ hlt)
  · refine Or.inr ⟨Finset.sum_congr rfl fun j _ => ?_, hsum _ hlt⟩
    by_cases hj : j = i
    · rw [hj, heq]
    · rw [hrest j hj]

theorem unused_of_moves {F : Finset Nat} (hF : ∀ i, i ∉ F → s.phases i = .unused) (hmoves : Moves O s s') :
    ∀ i, i ∉ F → s'.phases i = .unused := by
  intro j hj
  obtain ⟨i, hi, hrest, -⟩ := moves_forward hmoves
  have hne : j ≠ i := by
    rintro rfl
    exact hi (hF j hj)
  rw [hrest j hne]
  exact hF j hj

/-- Every step of a call brings it closer to its end. -/
theorem moves_acc {F : Finset Nat} (hF : ∀ i, i ∉ F → s.phases i = .unused) : Acc (fun s' s => Moves O s s') s := by
  induction hw : s.work F using WellFoundedLT.induction generalizing s with
  | ind w ih =>
      subst hw
      exact ⟨_, fun s' hmoves => ih _ (work_lt hF hmoves) (unused_of_moves hF hmoves) rfl⟩

/-- The calls made in a run are finitely many. -/
theorem run_finite (O : Object D C A) (d : D) (schedule : List (Nat × Action C)) :
    ∃ F : Finset Nat, ∀ i, i ∉ F → (System.run O d schedule).1.phases i = .unused := by
  induction schedule using List.reverseRecOn with
  | nil => exact ⟨∅, fun i _ => rfl⟩
  | append_singleton schedule next ih =>
      obtain ⟨F, hF⟩ := ih
      have hrun : System.run O d (schedule ++ [next]) = System.advance O (System.run O d schedule) next := by
        simp [System.run, List.foldl_append]
      rw [hrun]
      refine ⟨insert next.1 F, fun i hi => ?_⟩
      obtain ⟨hne, hnot⟩ := not_or.mp (Finset.mem_insert.not.mp hi)
      unfold System.advance
      split
      · exact hF i hnot
      · rw [← hF i hnot]
        exact takes_other (takes_of_step ‹_›) hne

/-- A call that is through has its answer in the history. -/
theorem done_answered (O : Object D C A) (d : D) (schedule : List (Nat × Action C)) (i : Nat)
    (hi : (System.run O d schedule).1.phases i = .done) : ∃ a, .answered i a ∈ (System.run O d schedule).2 := by
  induction schedule using List.reverseRecOn with
  | nil => cases hi
  | append_singleton schedule next ih =>
      have hrun : System.run O d (schedule ++ [next]) = System.advance O (System.run O d schedule) next := by
        simp [System.run, List.foldl_append]
      rw [hrun] at hi ⊢
      unfold System.advance at hi ⊢
      split at hi
      · exact ih hi
      · rename_i es s' hstep
        by_cases hne : i = next.1
        · subst hne
          cases takes_of_step hstep with
          | answer => exact ⟨_, List.mem_append_right _ (List.mem_singleton_self _)⟩
          | _ => simp [System.put] at hi
        · rw [takes_other (takes_of_step hstep) hne] at hi
          obtain ⟨a, ha⟩ := ih hi
          exact ⟨a, List.mem_append_left _ ha⟩

/-- Without new calls the system comes to rest. -/
theorem comes_to_rest (O : Object D C A) (d : D) (schedule : List (Nat × Action C)) :
    Acc (fun s' s => Moves O s s') (System.run O d schedule).1 := by
  obtain ⟨F, hF⟩ := run_finite O d schedule
  exact moves_acc hF

/-- At rest nobody owns the mutex and every call that was made has been answered. -/
theorem at_rest (O : Object D C A) (d : D) (schedule : List (Nat × Action C))
    (hrest : ∀ s', ¬ Moves O (System.run O d schedule).1 s') : (System.run O d schedule).1.mutex = none ∧
      ∀ i c, .called i c ∈ (System.run O d schedule).2 → ∃ a, .answered i a ∈ (System.run O d schedule).2 := by
  obtain ⟨lin, cur, hinv⟩ := Inv.run O d schedule
  constructor
  · by_contra hmutex
    obtain ⟨i, hi⟩ := Option.ne_none_iff_exists'.mp hmutex
    obtain ⟨c, hc⟩ := (hinv.locks.mutex i).mp hi
    obtain ⟨s', hmoves⟩ := owner_moves hc
    exact hrest s' hmoves
  · intro i c hc
    refine done_answered O d schedule i ?_
    by_contra hdone
    obtain ⟨s', hmoves⟩ := some_moves hinv.locks ((Once.run O d schedule).used i c hc) hdone
    exact hrest s' hmoves

end Semanticore.Lib.Guarded
