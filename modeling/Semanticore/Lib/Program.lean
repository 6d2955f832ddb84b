import Mathlib.Tactic

/-!
# Programs with a state and early exits

A program reads and writes a state and either returns a value or exits early with an error; the state survives an
early exit. `Runs R x s Q E` says where `x` can end when it starts in `s`: the final state is related to `s` by the
preorder `R`, and satisfies `Q` on a return and `E` on an early exit.
-/

namespace Semanticore.Lib

abbrev Prog (σ ε : Type) := ExceptT ε (StateM σ)

variable {σ ε α β : Type}

def Runs (R : σ → σ → Prop) (x : Prog σ ε α) (s : σ) (Q : α → σ → Prop) (E : ε → σ → Prop) : Prop :=
  match (x.run.run s : Except ε α × σ) with
  | (.ok a, s') => R s s' ∧ Q a s'
  | (.error e, s') => R s s' ∧ E e s'

namespace Runs

variable {R : σ → σ → Prop} {Q : α → σ → Prop} {E : ε → σ → Prop} {s s' : σ}

/-! ## Reading a run off -/

theorem ok {x : Prog σ ε α} {a : α} (h : Runs R x s Q E) (hx : x.run.run s = (.ok a, s')) :
    R s s' ∧ Q a s' := by
  unfold Runs at h
  rw [hx] at h
  exact h

theorem error {x : Prog σ ε α} {e : ε} (h : Runs R x s Q E) (hx : x.run.run s = (.error e, s')) :
    R s s' ∧ E e s' := by
  unfold Runs at h
  rw [hx] at h
  exact h

/-- A condition that both postconditions imply holds of the result and the final state. -/
theorem result {x : Prog σ ε α} {C : Except ε α → σ → Prop} (h : Runs R x s Q E)
    (hQ : ∀ a s', R s s' → Q a s' → C (.ok a) s') (hE : ∀ e s', R s s' → E e s' → C (.error e) s') :
    C (x.run.run s).1 (x.run.run s).2 := by
  rcases hx : (x.run.run s : Except ε α × σ) with ⟨e | a, s'⟩
  · exact hE _ _ (h.error hx).1 (h.error hx).2
  · exact hQ _ _ (h.ok hx).1 (h.ok hx).2

theorem final {x : Prog σ ε α} {C : σ → Prop} (h : Runs R x s Q E)
    (hQ : ∀ a s', R s s' → Q a s' → C s') (hE : ∀ e s', R s s' → E e s' → C s') :
    C (x.run.run s).2 := h.result (C := fun _ => C) hQ hE

/-- A program that cannot exit early returns. -/
theorem returns {x : Prog σ ε α} (h : Runs R x s Q fun _ _ => False) :
    ∃ a s', x.run.run s = (.ok a, s') ∧ R s s' ∧ Q a s' := by
  rcases hx : (x.run.run s : Except ε α × σ) with ⟨e | a, s'⟩
  · exact (h.error hx).2.elim
  · exact ⟨a, s', rfl, h.ok hx⟩

/-! ## Rules -/

theorem mono {x : Prog σ ε α} {Q' : α → σ → Prop} {E' : ε → σ → Prop} (h : Runs R x s Q E)
    (hQ : ∀ a s', R s s' → Q a s' → Q' a s') (hE : ∀ e s', R s s' → E e s' → E' e s') : Runs R x s Q' E' := by
  unfold Runs at *
  rcases hx : (x.run.run s : Except ε α × σ) with ⟨e | a, s'⟩ <;> rw [hx] at h
  · exact ⟨h.1, hE _ _ h.1 h.2⟩
  · exact ⟨h.1, hQ _ _ h.1 h.2⟩

/-- Two specifications of one program hold together. -/
theorem and {x : Prog σ ε α} {R' : σ → σ → Prop} {Q' : α → σ → Prop} {E' : ε → σ → Prop} (h : Runs R x s Q E)
    (h' : Runs R' x s Q' E') : Runs R x s (fun a s' => Q a s' ∧ R' s s' ∧ Q' a s') fun e s' => E e s' ∧ R' s s' ∧ E' e s' := by
  unfold Runs at *
  rcases hx : (x.run.run s : Except ε α × σ) with ⟨e | a, s'⟩ <;> rw [hx] at h h'
  · exact ⟨h.1, h.2, h'⟩
  · exact ⟨h.1, h.2, h'⟩

theorem ret [Std.Refl R] {a : α} (h : Q a s) : Runs R (pure a : Prog σ ε α) s Q E :=
  ⟨Std.Refl.refl s, h⟩

theorem exit [Std.Refl R] {e : ε} (h : E e s) : Runs R (throw e : Prog σ ε α) s Q E :=
  ⟨Std.Refl.refl s, h⟩

theorem read [Std.Refl R] {Q : σ → σ → Prop} (h : Q s s) : Runs R (get : Prog σ ε σ) s Q E :=
  ⟨Std.Refl.refl s, h⟩

theorem write {Q : PUnit → σ → Prop} (hR : R s s') (h : Q ⟨⟩ s') : Runs R (set s' : Prog σ ε PUnit) s Q E :=
  ⟨hR, h⟩

theorem update {Q : PUnit → σ → Prop} {f : σ → σ} (hR : R s (f s)) (h : Q ⟨⟩ (f s)) :
    Runs R (modify f : Prog σ ε PUnit) s Q E :=
  ⟨hR, h⟩

theorem run_bind (x : Prog σ ε α) (f : α → Prog σ ε β) (s : σ) :
    ((x >>= f).run.run s : Except ε β × σ) =
      match (x.run.run s : Except ε α × σ) with
      | (.ok a, s') => (f a).run.run s'
      | (.error e, s') => (.error e, s') := by
  unfold ExceptT.run StateT.run
  simp only [bind, ExceptT.bind, ExceptT.mk, StateT.bind, ExceptT.bindCont]
  rcases x s with ⟨e | a, s'⟩ <;> rfl

theorem bind [IsTrans σ R] {x : Prog σ ε α} {f : α → Prog σ ε β} {Q' : α → σ → Prop} {Q : β → σ → Prop}
    (hx : Runs R x s Q' E) (hf : ∀ a s', R s s' → Q' a s' → Runs R (f a) s' Q E) :
    Runs R (x >>= f) s Q E := by
  rcases hr : (x.run.run s : Except ε α × σ) with ⟨e | a, s'⟩
  · obtain ⟨hR, hE⟩ := hx.error hr
    unfold Runs
    rw [run_bind, hr]
    exact ⟨hR, hE⟩
  · obtain ⟨hR, hQ⟩ := hx.ok hr
    have hrest : Runs R (f a) s' (fun b s'' => R s s'' ∧ Q b s'') (fun e s'' => R s s'' ∧ E e s'') :=
      (hf a s' hR hQ).mono (fun _ _ h hq => ⟨Trans.trans hR h, hq⟩) fun _ _ h he => ⟨Trans.trans hR h, he⟩
    unfold Runs at hrest ⊢
    simp only [run_bind, hr]
    rcases hr' : ((f a).run.run s' : Except ε β × σ) with ⟨e | b, s''⟩ <;> rw [hr'] at hrest
    · exact hrest.2
    · exact hrest.2

theorem map {x : Prog σ ε α} {f : α → β} {Q : β → σ → Prop} (h : Runs R x s (fun a => Q (f a)) E) :
    Runs R (f <$> x) s Q E := by
  have hrun : ((f <$> x).run.run s : Except ε β × σ) =
      match (x.run.run s : Except ε α × σ) with
      | (.ok a, s') => (.ok (f a), s')
      | (.error e, s') => (.error e, s') := by
    rw [map_eq_pure_bind, run_bind]
    rcases (x.run.run s : Except ε α × σ) with ⟨e | a, s'⟩ <;> rfl
  unfold Runs at *
  rw [hrun]
  rcases hx : (x.run.run s : Except ε α × σ) with ⟨e | a, s'⟩ <;> rw [hx] at h <;> exact h

/-! ## Loops

The invariant of a loop over a list speaks about the elements still to come. -/

variable [Std.Refl R] [IsTrans σ R]

theorem forM {f : α → Prog σ ε PUnit} {I : List α → σ → Prop}
    (step : ∀ a rest s, I (a :: rest) s → Runs R (f a) s (fun _ => I rest) E) :
    ∀ {l : List α} {s : σ}, I l s → Runs R (l.forM f) s (fun _ => I []) E
  | [], _, h => ret h
  | a :: rest, s, h => by
      show Runs R (f a >>= fun _ => rest.forM f) s _ _
      exact (step a rest s h).bind fun _ _ _ h' => forM step h'

/-- Each result is related to the element it was computed from. -/
theorem mapM {f : α → Prog σ ε β} {I : List α → σ → Prop} {C : α → β → Prop}
    (step : ∀ a rest s, I (a :: rest) s → Runs R (f a) s (fun b s' => C a b ∧ I rest s') E) :
    ∀ {l : List α} {s : σ}, I l s →
      Runs R (l.mapM f) s (fun bs s' => List.Forall₂ C l bs ∧ I [] s') E
  | [], _, h => by
      rw [List.mapM_nil]
      exact ret ⟨.nil, h⟩
  | a :: rest, s, h => by
      rw [List.mapM_cons]
      refine (step a rest s h).bind fun b s' _ hb => ?_
      exact (mapM step hb.2).bind fun bs s'' _ hbs => ret ⟨.cons hb.1 hbs.1, hbs.2⟩

/-- The invariant of a fold speaks about the accumulator as well. -/
theorem foldlM {f : β → α → Prog σ ε β} {I : List α → β → σ → Prop}
    (step : ∀ b a rest s, I (a :: rest) b s → Runs R (f b a) s (fun b' => I rest b') E) :
    ∀ {l : List α} {b : β} {s : σ}, I l b s → Runs R (l.foldlM f b) s (fun b' => I [] b') E
  | [], _, _, h => ret h
  | a :: rest, b, s, h => by
      rw [List.foldlM_cons]
      exact (step b a rest s h).bind fun _ _ _ h' => foldlM step h'

end Runs

end Semanticore.Lib
