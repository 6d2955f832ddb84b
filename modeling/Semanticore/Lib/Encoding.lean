import Mathlib.Data.Finset.Basic
import Mathlib.Data.Finset.Filter

/-!
# Sets under a partial code

A backend that keeps codes stands for a set of values. Some values have no code; those that have one are told apart
by it.
-/

namespace Semanticore.Lib

/-- A partial code, injective on the values that occur. -/
structure Code (α β : Type) where
  Valid : α → Prop
  encode : α → Option β
  injective : ∀ {a a' : α} {b : β}, Valid a → Valid a' → encode a = some b → encode a' = some b → a = a'

variable {α β : Type} {c : Code α β} {K : Finset β} {S : Finset α} {a : α} {b : β}

/-- The codes `K` stand for the values `S`. -/
structure Represents (c : Code α β) (K : Finset β) (S : Finset α) : Prop where
  valid : ∀ a ∈ S, c.Valid a
  stored : ∀ a ∈ S, ∃ b ∈ K, c.encode a = some b
  named : ∀ b ∈ K, ∃ a ∈ S, c.encode a = some b

namespace Represents

theorem mem_iff (h : Represents c K S) (ha : c.Valid a) (he : c.encode a = some b) : b ∈ K ↔ a ∈ S := by
  constructor
  · intro hb
    obtain ⟨a', ha', he'⟩ := h.named b hb
    exact c.injective ha (h.valid a' ha') he he' ▸ ha'
  · intro hmem
    obtain ⟨b', hb', he'⟩ := h.stored a hmem
    exact Option.some.inj (he.symm.trans he') ▸ hb'

/-- A value without a code is in no set that is stored. -/
theorem not_mem (h : Represents c K S) (he : c.encode a = none) : a ∉ S := by
  intro hmem
  obtain ⟨b, -, hb⟩ := h.stored a hmem
  cases he.symm.trans hb

theorem empty : Represents c ∅ ∅ where
  valid a h := absurd h (Finset.notMem_empty a)
  stored a h := absurd h (Finset.notMem_empty a)
  named b h := absurd h (Finset.notMem_empty b)

/-- Values and codes are filtered alike when the tests agree on what is stored. -/
theorem filter (h : Represents c K S) {p : α → Prop} {r : β → Prop} [DecidablePred p] [DecidablePred r]
    (hagree : ∀ a ∈ S, ∀ b, c.encode a = some b → (r b ↔ p a)) : Represents c (K.filter r) (S.filter p) where
  valid a' h' := h.valid a' (Finset.mem_filter.mp h').1
  stored a' h' := by
    obtain ⟨hmem, hp⟩ := Finset.mem_filter.mp h'
    obtain ⟨b', hb', he'⟩ := h.stored a' hmem
    exact ⟨b', Finset.mem_filter.mpr ⟨hb', (hagree a' hmem b' he').mpr hp⟩, he'⟩
  named b' h' := by
    obtain ⟨hmem, hr⟩ := Finset.mem_filter.mp h'
    obtain ⟨a', ha', he'⟩ := h.named b' hmem
    exact ⟨a', Finset.mem_filter.mpr ⟨ha', (hagree a' ha' b' he').mp hr⟩, he'⟩

variable [DecidableEq α] [DecidableEq β]

theorem insert (h : Represents c K S) (ha : c.Valid a) (he : c.encode a = some b) :
    Represents c (Insert.insert b K) (Insert.insert a S) where
  valid a' h' := by
    rcases Finset.mem_insert.mp h' with rfl | h'
    · exact ha
    · exact h.valid a' h'
  stored a' h' := by
    rcases Finset.mem_insert.mp h' with rfl | h'
    · exact ⟨b, Finset.mem_insert_self b K, he⟩
    · obtain ⟨b', hb', he'⟩ := h.stored a' h'
      exact ⟨b', Finset.mem_insert_of_mem hb', he'⟩
  named b' h' := by
    rcases Finset.mem_insert.mp h' with rfl | h'
    · exact ⟨a, Finset.mem_insert_self a S, he⟩
    · obtain ⟨a', ha', he'⟩ := h.named b' h'
      exact ⟨a', Finset.mem_insert_of_mem ha', he'⟩

theorem erase (h : Represents c K S) (ha : c.Valid a) (he : c.encode a = some b) :
    Represents c (K.erase b) (S.erase a) := by
  rw [← Finset.filter_ne' K b, ← Finset.filter_ne' S a]
  refine h.filter fun a' ha' b' he' => ?_
  constructor
  · rintro hne rfl
    exact hne (Option.some.inj (he'.symm.trans he))
  · rintro hne rfl
    exact hne (c.injective (h.valid a' ha') ha he' he)

/-- A listing of the codes lists every value once. -/
theorem listing (h : Represents c K S) {l : List β} (hl : ∀ b, b ∈ l ↔ b ∈ K) (hnodup : l.Nodup) :
    ∃ as : List α, as.Nodup ∧ as.toFinset = S ∧ List.Forall₂ (fun a b => c.Valid a ∧ c.encode a = some b) as l := by
  induction l generalizing K S with
  | nil =>
      refine ⟨[], .nil, ?_, .nil⟩
      refine (Finset.eq_empty_of_forall_notMem fun a ha => ?_).symm
      obtain ⟨b, hb, -⟩ := h.stored a ha
      exact List.not_mem_nil ((hl b).mpr hb)
  | cons b l ih =>
      obtain ⟨hnotin, hnodup⟩ := List.nodup_cons.mp hnodup
      obtain ⟨a, ha, he⟩ := h.named b ((hl b).mp (List.mem_cons_self ..))
      have hrest : ∀ b', b' ∈ l ↔ b' ∈ K.erase b := by
        intro b'
        rw [Finset.mem_erase, ← hl b', List.mem_cons]
        constructor
        · intro hb'
          exact ⟨fun hb => hnotin (hb ▸ hb'), Or.inr hb'⟩
        · rintro ⟨hne, rfl | hb'⟩
          · exact (hne rfl).elim
          · exact hb'
      obtain ⟨as, has, hset, hall⟩ := ih (h.erase (h.valid a ha) he) hrest hnodup
      have hmem : ∀ a', a' ∈ as ↔ a' ∈ S.erase a := fun a' => by rw [← hset, List.mem_toFinset]
      refine ⟨a :: as, List.nodup_cons.mpr ⟨fun h' => ?_, has⟩, ?_, .cons ⟨h.valid a ha, he⟩ hall⟩
      · exact Finset.notMem_erase a S ((hmem a).mp h')
      · rw [List.toFinset_cons, hset, Finset.insert_erase ha]

end Represents

/-! ## Written codes -/

variable [DecidableEq α] [DecidableEq β]

/-- Codes that were put there for values, one after another. Any code may be deleted in between. -/
inductive Written (c : Code α β) : Finset β → Prop
  | empty : Written c ∅
  | put {K : Finset β} {a : α} {b : β} (h : Written c K) (ha : c.Valid a) (he : c.encode a = some b) : Written c (insert b K)
  | delete {K : Finset β} (h : Written c K) (b : β) : Written c (K.erase b)

/-- What is written stands for a set of values. -/
theorem Written.represents (h : Written c K) : ∃ S, Represents c K S := by
  induction h with
  | empty => exact ⟨∅, .empty⟩
  | put _ ha he ih =>
      obtain ⟨S, hS⟩ := ih
      exact ⟨_, hS.insert ha he⟩
  | @delete K _ b ih =>
      obtain ⟨S, hS⟩ := ih
      by_cases hb : b ∈ K
      · obtain ⟨a, ha, he⟩ := hS.named b hb
        exact ⟨S.erase a, hS.erase (hS.valid a ha) he⟩
      · exact ⟨S, (Finset.erase_eq_of_notMem hb).symm ▸ hS⟩

end Semanticore.Lib
