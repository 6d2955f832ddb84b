import Semanticore.Lib.Program

/-!
# Programs with choices left open

A program may leave choices open: the state carries a list of them, and the program takes them off one by one. Another
program goes its own way without such a list. The first follows the second if, with the right choices, both return the
same, or exit early with the same error, and leave related states.
-/

namespace Semanticore.Lib

/-- How the states of two programs are compared. `put` sets the choices that come next. From a `calm` state the second
program calls for `good` choices only. -/
structure Comparison (σ τ ι : Type) where
  put : σ → List ι → σ
  related : σ → τ → Prop
  calm : τ → Prop
  good : ι → Prop

namespace Comparison

variable {σ τ ι ε α β : Type} {F : Comparison σ τ ι}

/-- `x` follows `y`, which returns values that satisfy `Q`. The choices that `x` does not need are left for what comes
next. -/
def Follows (F : Comparison σ τ ι) (x : Prog σ ε α) (y : Prog τ ε α) (Q : α → Prop) : Prop :=
  ∀ s t, F.related s t → ∃ cs s', F.related s' (y.run.run t).2 ∧
    (F.calm t → F.calm (y.run.run t).2 ∧ ∀ c ∈ cs, F.good c) ∧
    (∀ a, (y.run.run t).1 = .ok a → Q a) ∧
    ∀ rest, x.run.run (F.put s (cs ++ rest)) = ((y.run.run t).1, F.put s' rest)

namespace Follows

variable {Q : α → Prop} {R : β → Prop}

/-! ## Rules -/

theorem mono {x : Prog σ ε α} {y : Prog τ ε α} {R : α → Prop} (h : F.Follows x y Q) (hQ : ∀ a, Q a → R a) :
    F.Follows x y R := by
  intro s t hst
  obtain ⟨cs, s', hrel, hcalm, hres, hrun⟩ := h s t hst
  exact ⟨cs, s', hrel, hcalm, fun a ha => hQ a (hres a ha), hrun⟩

theorem ret {a : α} (h : Q a) : F.Follows (pure a : Prog σ ε α) (pure a) Q := by
  intro s t hst
  refine ⟨[], s, hst, fun hcalm => ⟨hcalm, by simp⟩, fun b hb => ?_, fun _ => rfl⟩
  cases hb
  exact h

theorem exit {e : ε} : F.Follows (throw e : Prog σ ε α) (throw e) Q := by
  intro s t hst
  refine ⟨[], s, hst, fun hcalm => ⟨hcalm, by simp⟩, fun b hb => ?_, fun _ => rfl⟩
  cases hb

/-- What both programs read off their states is the same. -/
theorem read {f : σ → α} {g : τ → α} (h : ∀ s t cs, F.related s t → f (F.put s cs) = g t ∧ Q (g t)) :
    F.Follows (do return f (← get) : Prog σ ε α) (do return g (← get)) Q := by
  intro s t hst
  refine ⟨[], s, hst, fun hcalm => ⟨hcalm, by simp⟩, fun a ha => ?_, fun rest => ?_⟩
  · cases ha
    exact (h s t [] hst).2
  · show (Except.ok (f (F.put s rest)), F.put s rest) = (Except.ok (g t), F.put s rest)
    rw [(h s t rest hst).1]

/-- Both programs change their states and go on. -/
theorem update {f : σ → σ} {g : τ → τ} (hput : ∀ s cs, f (F.put s cs) = F.put (f s) cs)
    (hrel : ∀ s t, F.related s t → F.related (f s) (g t)) (hcalm : ∀ t, F.calm t → F.calm (g t)) :
    F.Follows (modify f : Prog σ ε PUnit) (modify g) fun _ => True := by
  intro s t hst
  refine ⟨[], f s, hrel s t hst, fun h => ⟨hcalm t h, by simp⟩, fun _ _ => trivial, fun rest => ?_⟩
  show ((Except.ok ⟨⟩ : Except ε PUnit), f (F.put s rest)) = (Except.ok ⟨⟩, F.put (f s) rest)
  rw [hput]

theorem bind {x : Prog σ ε α} {y : Prog τ ε α} {f : α → Prog σ ε β} {g : α → Prog τ ε β} (hx : F.Follows x y Q)
    (hf : ∀ a, Q a → F.Follows (f a) (g a) R) : F.Follows (x >>= f) (y >>= g) R := by
  intro s t hst
  obtain ⟨cs, s', hrel, hcalm, hres, hrun⟩ := hx s t hst
  rcases hy : (y.run.run t : Except ε α × τ) with ⟨e | a, t'⟩
  · rw [hy] at hrel hcalm hrun
    refine ⟨cs, s', ?_, ?_, ?_, fun rest => ?_⟩
    · rwa [Runs.run_bind, hy]
    · rwa [Runs.run_bind, hy]
    · rw [Runs.run_bind, hy]
      exact fun _ hb => by cases hb
    · rw [Runs.run_bind, Runs.run_bind, hrun, hy]
  · rw [hy] at hrel hcalm hres hrun
    obtain ⟨ds, s'', hrel', hcalm', hres', hrun'⟩ := hf a (hres a rfl) s' t' hrel
    refine ⟨cs ++ ds, s'', ?_, ?_, ?_, fun rest => ?_⟩
    · rwa [Runs.run_bind, hy]
    · rw [Runs.run_bind, hy]
      intro ht
      obtain ⟨ht', hcs⟩ := hcalm ht
      obtain ⟨ht'', hds⟩ := hcalm' ht'
      exact ⟨ht'', fun c hc => (List.mem_append.mp hc).elim (hcs c) (hds c)⟩
    · rwa [Runs.run_bind, hy]
    · rw [Runs.run_bind, Runs.run_bind, List.append_assoc, hrun, hy]
      exact hrun' rest

theorem map {x : Prog σ ε α} {y : Prog τ ε α} {f : α → β} (h : F.Follows x y fun a => R (f a)) :
    F.Follows (f <$> x) (f <$> y) R := by
  rw [map_eq_pure_bind, map_eq_pure_bind]
  exact h.bind fun a ha => ret ha

/-- After `x` has followed `y`, the rest need not look at what they returned. -/
theorem seq {x : Prog σ ε PUnit} {y : Prog τ ε PUnit} {f : Prog σ ε β} {g : Prog τ ε β}
    (hx : F.Follows x y fun _ => True) (hf : F.Follows f g R) : F.Follows (do x; f) (do y; g) R :=
  hx.bind fun _ _ => hf

/-- What comes after an early exit does not matter. -/
theorem exit_bind {e : ε} {f : α → Prog σ ε β} {g : α → Prog τ ε β} :
    F.Follows ((throw e : Prog σ ε α) >>= f) ((throw e : Prog τ ε α) >>= g) R :=
  bind (Q := fun _ => False) exit fun _ h => h.elim

/-- A change of the state of `x` alone, before the rest. -/
theorem before {x : Prog σ ε α} {y : Prog τ ε α} {f : σ → σ} (hput : ∀ s cs, f (F.put s cs) = F.put (f s) cs)
    (hrel : ∀ s t, F.related s t → F.related (f s) t) (h : F.Follows x y Q) : F.Follows (do modify f; x) y Q := by
  intro s t hst
  obtain ⟨cs, s', hrel', hcalm, hres, hrun⟩ := h (f s) t (hrel s t hst)
  refine ⟨cs, s', hrel', hcalm, hres, fun rest => ?_⟩
  show x.run.run (f (F.put s (cs ++ rest))) = _
  rw [hput]
  exact hrun rest

/-- A change of the state of `x` alone, at the end. -/
theorem after {x : Prog σ ε PUnit} {y : Prog τ ε PUnit} {f : σ → σ} (hput : ∀ s cs, f (F.put s cs) = F.put (f s) cs)
    (hrel : ∀ s t, F.related s t → F.related (f s) t) (h : F.Follows x y fun _ => True) :
    F.Follows (do x; modify f) y fun _ => True := by
  intro s t hst
  obtain ⟨cs, s', hrel', hcalm, hres, hrun⟩ := h s t hst
  rcases hy : (y.run.run t : Except ε PUnit × τ) with ⟨e | ⟨⟨⟩⟩, t'⟩ <;> rw [hy] at hrel' hcalm hres hrun
  · refine ⟨cs, s', hrel', hcalm, hres, fun rest => ?_⟩
    rw [Runs.run_bind, hrun]
  · refine ⟨cs, f s', hrel s' t' hrel', hcalm, hres, fun rest => ?_⟩
    rw [Runs.run_bind, hrun]
    show ((Except.ok ⟨⟩ : Except ε PUnit), f (F.put s' rest)) = (Except.ok ⟨⟩, F.put (f s') rest)
    rw [hput]

/-! ## Loops -/

theorem forM {γ : Type} {f : γ → Prog σ ε PUnit} {g : γ → Prog τ ε PUnit} {l : List γ}
    (h : ∀ a ∈ l, F.Follows (f a) (g a) fun _ => True) : F.Follows (l.forM f) (l.forM g) fun _ => True := by
  induction l with
  | nil => exact ret trivial
  | cons a l ih =>
      show F.Follows (f a >>= fun _ => l.forM f) (g a >>= fun _ => l.forM g) _
      exact (h a List.mem_cons_self).seq (ih fun b hb => h b (List.mem_cons_of_mem _ hb))

theorem mapM {γ : Type} {f : γ → Prog σ ε α} {g : γ → Prog τ ε α} {l : List γ}
    (h : ∀ a ∈ l, F.Follows (f a) (g a) fun _ => True) : F.Follows (l.mapM f) (l.mapM g) fun _ => True := by
  induction l with
  | nil =>
      rw [List.mapM_nil, List.mapM_nil]
      exact ret trivial
  | cons a l ih =>
      rw [List.mapM_cons, List.mapM_cons]
      refine (h a List.mem_cons_self).bind fun b _ => ?_
      exact (ih fun c hc => h c (List.mem_cons_of_mem _ hc)).bind fun bs _ => ret trivial

end Follows

end Comparison

end Semanticore.Lib
