import Semanticore.Lib.Program

/-!
# Programs that succeed

`Succeeds x s Q`: started in `s`, the program `x` does not exit early, and what it returns and leaves satisfies `Q`. Steps
that only read have a rule of their own, `next`.
-/

namespace Semanticore.Lib

variable {σ ε α β γ : Type}

def Succeeds (x : Prog σ ε α) (s : σ) (Q : α → σ → Prop) : Prop := Runs (fun _ _ => True) x s Q fun _ _ => False

namespace Succeeds

variable {s : σ} {Q : α → σ → Prop} {x : Prog σ ε α}

instance (priority := low) : Std.Refl fun _ _ : σ => True := ⟨fun _ => trivial⟩

instance (priority := low) : IsTrans σ fun _ _ => True := ⟨fun _ _ _ _ _ => trivial⟩

theorem returns (h : Succeeds x s Q) : ∃ a s', x.run.run s = (.ok a, s') ∧ Q a s' := by
  obtain ⟨a, s', hrun, -, hQ⟩ := Runs.returns h
  exact ⟨a, s', hrun, hQ⟩

theorem ret {a : α} (h : Q a s) : Succeeds (pure a : Prog σ ε α) s Q := Runs.ret h

theorem mono {Q' : α → σ → Prop} (h : Succeeds x s Q) (hQ : ∀ a s', Q a s' → Q' a s') : Succeeds x s Q' :=
  Runs.mono h (fun a s' _ => hQ a s') fun _ _ _ => id

theorem bind {f : α → Prog σ ε β} {Q' : β → σ → Prop} (h : Succeeds x s Q)
    (hf : ∀ a s', Q a s' → Succeeds (f a) s' Q') : Succeeds (x >>= f) s Q' :=
  Runs.bind h fun a s' _ hQ => hf a s' hQ

/-- A step that leaves the state as it is. -/
theorem next {P : α → Prop} {f : α → Prog σ ε β} {Q' : β → σ → Prop} (h : Succeeds x s fun a s' => P a ∧ s' = s)
    (hf : ∀ a, P a → Succeeds (f a) s Q') : Succeeds (x >>= f) s Q' :=
  h.bind fun a _ hP => hP.2 ▸ hf a hP.1

theorem read {f : σ → Prog σ ε β} {Q' : β → σ → Prop} (h : Succeeds (f s) s Q') :
    Succeeds ((get : Prog σ ε σ) >>= f) s Q' :=
  bind (Runs.read (Q := fun a s' => a = s ∧ s' = s) ⟨rfl, rfl⟩) fun a s' hs => by
    obtain ⟨rfl, rfl⟩ := hs
    exact h

theorem write {s' : σ} {f : PUnit → Prog σ ε β} {Q' : β → σ → Prop} (h : Succeeds (f ⟨⟩) s' Q') :
    Succeeds ((set s' : Prog σ ε PUnit) >>= f) s Q' :=
  bind (Runs.write (Q := fun _ t => t = s') trivial rfl) fun _ _ ht => ht ▸ h

/-- There is nothing to catch. -/
theorem caught {f : ε → Prog σ ε α} (h : Succeeds x s Q) : Succeeds (tryCatch x f) s Q := by
  obtain ⟨a, s', hrun, hQ⟩ := h.returns
  have hcatch : (tryCatch x f).run.run s = (.ok a, s') := by
    rw [ExceptT.run_tryCatch, StateT.run_bind, hrun]
    rfl
  simp only [Succeeds, Runs, hcatch]
  exact ⟨trivial, hQ⟩

/-- A loop over a list with an accumulator that leaves the state as it is. -/
theorem foldlM {f : β → γ → Prog σ ε β} {I : List γ → β → Prop}
    (step : ∀ b c rest, I (c :: rest) b → Succeeds (f b c) s fun b' s' => I rest b' ∧ s' = s) :
    ∀ {l : List γ} {b : β}, I l b → Succeeds (l.foldlM f b) s fun b' s' => I [] b' ∧ s' = s
  | [], _, h => ret ⟨h, rfl⟩
  | c :: rest, b, h => by
      rw [List.foldlM_cons]
      exact (step b c rest h).next fun _ hb => foldlM step hb

/-- A loop over a list that leaves the state as it is. -/
theorem forM {f : γ → Prog σ ε PUnit} {l : List γ} (step : ∀ c ∈ l, Succeeds (f c) s fun _ s' => True ∧ s' = s) :
    Succeeds (l.forM f) s fun _ s' => True ∧ s' = s := by
  induction l with
  | nil => exact ret ⟨trivial, rfl⟩
  | cons c rest ih =>
      show Succeeds (f c >>= fun _ => rest.forM f) s _
      exact (step c List.mem_cons_self).next fun _ _ => ih fun c hc => step c (List.mem_cons_of_mem _ hc)

end Succeeds

end Semanticore.Lib
