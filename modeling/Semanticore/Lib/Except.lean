import Mathlib.Data.List.Forall2

/-!
# Computations that can fail

What a computation in `Except` returns, read off from its steps, and what `mapM` returns over a list.
-/

namespace Semanticore.Lib

variable {α β ε : Type}

theorem bind_eq_ok {x : Except ε α} {f : α → Except ε β} {b : β} : x >>= f = .ok b ↔ ∃ a, x = .ok a ∧ f a = .ok b := by
  cases x <;> simp [bind, Except.bind]

theorem map_eq_ok {x : Except ε α} {f : α → β} {b : β} : f <$> x = .ok b ↔ ∃ a, x = .ok a ∧ f a = b := by
  cases x <;> simp

theorem map_eq_error {x : Except ε α} {f : α → β} {e : ε} : f <$> x = .error e ↔ x = .error e := by
  cases x <;> simp

/-! ## Lists

`mapM` returns as soon as one element fails. -/

section
variable {f : α → Except ε β} {l : List α} {bs : List β}

theorem mapM_eq_ok : l.mapM f = .ok bs ↔ List.Forall₂ (fun a b => f a = .ok b) l bs := by
  induction l generalizing bs with
  | nil => exact ⟨fun h => by cases h; exact .nil, fun h => by cases h; rfl⟩
  | cons a l ih =>
      rw [List.mapM_cons, bind_eq_ok]
      constructor
      · rintro ⟨b, hb, h⟩
        obtain ⟨bs', hbs, h⟩ := bind_eq_ok.mp h
        cases h
        exact .cons hb (ih.mp hbs)
      · rintro ⟨⟩
        rename_i b bs hb hbs
        exact ⟨b, hb, bind_eq_ok.mpr ⟨bs, ih.mpr hbs, rfl⟩⟩

theorem mapM_eq_ok_map (g : β → α) (h : ∀ a b, f a = .ok b ↔ a = g b) : l.mapM f = .ok bs ↔ l = bs.map g := by
  rw [mapM_eq_ok, ← List.forall₂_eq_eq_eq, List.forall₂_map_right_iff]
  simp only [h]

theorem mapM_map_ok {g : Except ε α → Except ε β} {r : α → β} (h : ∀ a, g (.ok a) = .ok (r a)) :
    (l.map .ok).mapM g = .ok (l.map r) := by
  rw [mapM_eq_ok, List.forall₂_map_left_iff, List.forall₂_map_right_iff, List.forall₂_same]
  exact fun a _ => h a

theorem mapM_id_ok (l : List α) : (l.map Except.ok).mapM id = (.ok l : Except ε (List α)) := by
  rw [mapM_map_ok (r := id) fun _ => rfl, List.map_id]

/-- What is returned are the values of the elements. -/
theorem mem_mapM (h : l.mapM f = .ok bs) {b : β} : b ∈ bs ↔ ∃ a ∈ l, f a = .ok b := by
  have hall : List.Forall₂ (fun a b => f a = .ok b) l bs := mapM_eq_ok.mp h
  clear h
  induction hall with
  | nil => simp
  | cons ha _ ih => simp [ih, ha, eq_comm]

theorem mapM_returns : (∃ bs, l.mapM f = .ok bs) ↔ ∀ a ∈ l, ∃ b, f a = .ok b := by
  induction l with
  | nil => exact ⟨fun _ _ ha => absurd ha List.not_mem_nil, fun _ => ⟨[], rfl⟩⟩
  | cons a l ih =>
      rw [List.forall_mem_cons, ← ih]
      simp only [mapM_eq_ok, List.forall₂_cons_left_iff]
      constructor
      · rintro ⟨-, b, bs, hb, hbs, -⟩
        exact ⟨⟨b, hb⟩, bs, hbs⟩
      · rintro ⟨⟨b, hb⟩, bs, hbs⟩
        exact ⟨b :: bs, b, bs, hb, hbs, rfl⟩

end

end Semanticore.Lib
