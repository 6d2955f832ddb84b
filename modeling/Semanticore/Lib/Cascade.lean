import Mathlib.Data.Finset.Card
import Mathlib.Tactic

/-!
# Bounded tiers that overflow into one another

A tier of a given capacity keeps its highest-ranked elements. Of those it cannot keep some fall into the next tier,
which keeps its highest-ranked elements in turn. Filling the first tier in two rounds, with a cascade after each,
leaves what filling it at once leaves.
-/

namespace Semanticore.Lib

variable {α β κ : Type} [LinearOrder β]

/-! ## Ranking by a key

A stable sort by key puts the elements in the order of their keys and, for equal keys, of their positions. -/

section
variable {γ ι : Type} [LinearOrder ι] {key : γ → β} {pos : γ → ι} {l : List γ}

theorem pairwise_orderedInsert {a : γ} (hl : l.Pairwise fun a b => toLex (key a, pos a) < toLex (key b, pos b))
    (ha : ∀ b ∈ l, pos a < pos b) :
    (l.orderedInsert (fun a b => key a ≤ key b) a).Pairwise fun a b => toLex (key a, pos a) < toLex (key b, pos b) := by
  induction l with
  | nil => simp
  | cons b l ih =>
      obtain ⟨hb, hl'⟩ := List.pairwise_cons.mp hl
      obtain ⟨hab, hal⟩ := List.forall_mem_cons.mp ha
      rw [List.orderedInsert_cons]
      split
      · rename_i hle
        have hlt : toLex (key a, pos a) < toLex (key b, pos b) :=
          Prod.Lex.toLex_lt_toLex.mpr (hle.lt_or_eq.imp_right fun heq => ⟨heq, hab⟩)
        exact List.pairwise_cons.mpr ⟨List.forall_mem_cons.mpr ⟨hlt, fun c hc => hlt.trans (hb c hc)⟩, hl⟩
      · rename_i hnle
        refine List.pairwise_cons.mpr ⟨fun c hc => ?_, ih hl' hal⟩
        rcases (List.mem_orderedInsert _).mp hc with rfl | hc
        · exact Prod.Lex.toLex_lt_toLex.mpr (Or.inl (not_le.mp hnle))
        · exact hb c hc

theorem pairwise_insertionSort (h : l.Pairwise fun a b => pos a < pos b) :
    (l.insertionSort fun a b => key a ≤ key b).Pairwise fun a b => toLex (key a, pos a) < toLex (key b, pos b) := by
  induction l with
  | nil => exact .nil
  | cons a l ih =>
      obtain ⟨ha, hl⟩ := List.pairwise_cons.mp h
      exact pairwise_orderedInsert (ih hl) fun b hb => ha b ((List.mem_insertionSort _).mp hb)

end

/-! ## One tier -/

/-- How many of `n` elements a tier keeps; `none` is no bound. -/
def capped (cap : Option Nat) (n : Nat) : Nat := cap.elim n (min n)

/-- `K` is what a tier of capacity `cap` keeps of `X`. -/
structure Keeps (rank : α → β) (cap : Option Nat) (X K : Finset α) : Prop where
  subset : K ⊆ X
  size : K.card = capped cap X.card
  above : ∀ a ∈ X, a ∉ K → ∀ b ∈ K, rank a < rank b

namespace Keeps

variable {rank : α → β} {cap : Option Nat} {X Y K K' M : Finset α}

/-- Unless it keeps everything, a tier is full. -/
theorem full (h : Keeps rank cap X K) {a : α} (ha : a ∈ X) (haK : a ∉ K) : ∃ c, cap = some c ∧ K.card = c ∧ c < X.card := by
  have hlt : K.card < X.card := Finset.card_lt_card ⟨h.subset, fun hsub => haK (hsub ha)⟩
  cases cap with
  | none =>
      have := h.size
      simp only [capped, Option.elim_none] at this
      omega
  | some c =>
      have := h.size
      simp only [capped, Option.elim_some] at this
      exact ⟨c, rfl, by omega, by omega⟩

/-- A tier with room for everything keeps everything. -/
theorem eq_of_fits (h : Keeps rank cap X K) (hfits : ∀ c, cap = some c → X.card ≤ c) : K = X := by
  refine h.subset.antisymm fun a ha => ?_
  by_contra haK
  obtain ⟨c, hc, -, hlt⟩ := h.full ha haK
  exact absurd (hfits c hc) hlt.not_ge

variable [DecidableEq α]

/-- Two sets that a tier may keep are the same: of two different ones each would have an element above one of the
other. -/
theorem unique (h : Keeps rank cap X K) (h' : Keeps rank cap X K') : K = K' := by
  have hcard : K.card = K'.card := h.size.trans h'.size.symm
  by_contra hne
  have hsub : ¬ K ⊆ K' := fun hsub => hne (Finset.eq_of_subset_of_card_le hsub hcard.ge)
  have hsub' : ¬ K' ⊆ K := fun hsub => hne (Finset.eq_of_subset_of_card_le hsub hcard.le).symm
  obtain ⟨a, ha, ha'⟩ := Finset.not_subset.mp hsub
  obtain ⟨b, hb, hb'⟩ := Finset.not_subset.mp hsub'
  exact lt_asymm (h'.above a (h.subset ha) ha' b hb) (h.above b (h'.subset hb) hb' a ha)

/-- What a tier keeps of what it kept and new elements, it keeps of all of them. -/
theorem absorb (h : Keeps rank cap X K) (h' : Keeps rank cap (K ∪ Y) M) : Keeps rank cap (X ∪ Y) M := by
  have hle : (K ∪ Y).card ≤ (X ∪ Y).card := Finset.card_le_card (Finset.union_subset_union_left h.subset)
  refine ⟨h'.subset.trans (Finset.union_subset_union_left h.subset), ?_, fun a ha haM b hb => ?_⟩
  · by_cases hall : X ⊆ K
    · rw [h'.size, Finset.Subset.antisymm h.subset hall]
    · obtain ⟨a, ha, haK⟩ := Finset.not_subset.mp hall
      obtain ⟨c, rfl, hc, -⟩ := h.full ha haK
      have hK : K.card ≤ (K ∪ Y).card := Finset.card_le_card Finset.subset_union_left
      rw [h'.size]
      simp only [capped, Option.elim_some]
      omega
  · by_cases haK : a ∈ K ∪ Y
    · exact h'.above a haK haM b hb
    -- `a` was rejected in the first round, when the tier was full.
    rw [Finset.mem_union, not_or] at haK
    have haX : a ∈ X := (Finset.mem_union.mp ha).resolve_right haK.2
    by_cases hbK : b ∈ K
    · exact h.above a haX haK.1 b hbK
    obtain ⟨c, rfl, hc, -⟩ := h.full haX haK.1
    have hM : M.card ≤ K.card := by
      have := h'.size
      simp only [capped, Option.elim_some] at this
      omega
    -- `b` took the place of some `k` that the first round kept.
    have hsub : ¬ K ⊆ M := fun hsub => hbK ((Finset.eq_of_subset_of_card_le hsub hM) ▸ hb)
    obtain ⟨k, hk, hkM⟩ := Finset.not_subset.mp hsub
    exact (h.above a haX haK.1 k hk).trans (h'.above k (Finset.mem_union_left _ hk) hkM b hb)

/-- What the first round rejects does not come back in the second. -/
theorem disjoint_rejected (hXY : Disjoint X Y) : Disjoint (X \ K) (K ∪ Y) :=
  Finset.disjoint_union_right.mpr ⟨Finset.sdiff_disjoint, hXY.mono_left Finset.sdiff_subset⟩

/-- What two rounds reject is what one round of both rejects. -/
theorem rejected (h : Keeps rank cap X K) (h' : Keeps rank cap (K ∪ Y) M) (hXY : Disjoint X Y) :
    (X ∪ Y) \ M = (X \ K) ∪ ((K ∪ Y) \ M) := by
  ext a
  have hsub : a ∈ K → a ∈ X := fun h' => h.subset h'
  have hsub' : a ∈ M → a ∈ K ∪ Y := fun h => h'.subset h
  have hnot : a ∈ X \ K → a ∉ K ∪ Y := fun hmem => Finset.disjoint_left.mp (disjoint_rejected hXY) hmem
  simp only [Finset.mem_union, Finset.mem_sdiff] at *
  tauto

/-- Dropping the first elements of a list in rank order. -/
theorem of_sorted {l : List α} (hsorted : l.Pairwise fun a b => rank a < rank b) {n : Nat}
    (hn : l.length - n = capped cap l.length) : Keeps rank cap l.toFinset (l.drop n).toFinset := by
  have hnodup : l.Nodup := hsorted.imp fun h => ne_of_apply_ne rank h.ne
  refine ⟨fun a ha => ?_, ?_, fun a ha haK b hb => ?_⟩
  · exact List.mem_toFinset.mpr (List.mem_of_mem_drop (List.mem_toFinset.mp ha))
  · rw [List.toFinset_card_of_nodup (hnodup.sublist (List.drop_sublist n l)), List.toFinset_card_of_nodup hnodup,
      List.length_drop, hn]
  · rw [List.mem_toFinset] at ha haK hb
    rw [← List.take_append_drop n l] at ha hsorted
    exact (List.pairwise_append.mp hsorted).2.2 a ((List.mem_append.mp ha).resolve_right haK) b hb

end Keeps

/-! ## A cascade -/

variable [DecidableEq α]

/-- Tiers `ks` with contents `T` are filled with `I` from above and keep `K`. What a tier does not keep and lets fall
goes to the next one. `R` collects what the tiers do not keep. -/
inductive Cascade (rank : α → β) (cap : κ → Option Nat) (falls : κ → α → Prop) [∀ k, DecidablePred (falls k)]
    (T K : κ → Finset α) : List κ → Finset α → Multiset α → Prop
  | nil {I : Finset α} : Cascade rank cap falls T K [] I 0
  | cons {k : κ} {ks : List κ} {I : Finset α} {R : Multiset α} (kept : Keeps rank (cap k) (T k ∪ I) (K k))
      (rest : Cascade rank cap falls T K ks (((T k ∪ I) \ K k).filter (falls k)) R) :
      Cascade rank cap falls T K (k :: ks) I (((T k ∪ I) \ K k).val + R)

namespace Cascade

variable {rank : α → β} {cap : κ → Option Nat} {falls : κ → α → Prop} [∀ k, DecidablePred (falls k)]
  {T K K' : κ → Finset α} {I J : Finset α} {R R' : Multiset α} {ks : List κ}

theorem unique (h : Cascade rank cap falls T K ks I R) (h' : Cascade rank cap falls T K' ks I R') : R = R' := by
  induction h generalizing R' with
  | nil =>
      cases h'
      rfl
  | cons kept rest ih =>
      cases h' with
      | cons kept' rest' =>
          rw [← kept.unique kept'] at rest' ⊢
          rw [ih rest']

/-- Whatever is not kept came from a tier or from above. -/
theorem mem (h : Cascade rank cap falls T K ks I R) {a : α} (ha : a ∈ R) : a ∈ I ∨ ∃ k ∈ ks, a ∈ T k := by
  induction h with
  | nil => exact absurd ha (Multiset.notMem_zero a)
  | @cons k ks I R kept rest ih =>
      have hhead : a ∈ T k ∪ I → a ∈ I ∨ ∃ k' ∈ k :: ks, a ∈ T k' := fun ha =>
        (Finset.mem_union.mp ha).symm.imp_right fun ha => ⟨k, by simp, ha⟩
      rcases Multiset.mem_add.mp ha with ha | ha
      · exact hhead (Finset.mem_sdiff.mp (Finset.mem_val.mp ha)).1
      · rcases ih ha with ha | ⟨k', hk', ha⟩
        · exact hhead (Finset.mem_sdiff.mp (Finset.mem_filter.mp ha).1).1
        · exact Or.inr ⟨k', by simp [hk'], ha⟩

theorem union_val {s t : Finset α} (h : Disjoint s t) : (s ∪ t).val = s.val + t.val := by
  rw [← Finset.disjUnion_eq_union s t h]
  rfl

/-- A second round, on what the first one left, makes one round of both. -/
theorem absorb (h : Cascade rank cap falls T K ks I R) (h' : Cascade rank cap falls K K' ks J R')
    (hT : ks.Pairwise fun k k' => Disjoint (T k) (T k')) (hI : ∀ k ∈ ks, Disjoint I (T k))
    (hJ : ∀ k ∈ ks, Disjoint J (T k)) (hIJ : Disjoint I J) :
    Cascade rank cap falls T K' ks (I ∪ J) (R + R') := by
  induction h generalizing J R' with
  | nil =>
      cases h'
      exact .nil
  | @cons k ks I R kept rest ih =>
      cases h' with
      | @cons _ _ _ R' kept' rest' =>
          rw [List.pairwise_cons] at hT
          rw [List.forall_mem_cons] at hI hJ
          have hTI : Disjoint (T k ∪ I) J := Finset.disjoint_union_left.mpr ⟨hJ.1.symm, hIJ⟩
          have hdisj := (Keeps.disjoint_rejected (K := K k) hTI).mono_right (Finset.sdiff_subset (t := K' k))
          have hrejected := kept.rejected kept' hTI
          have hfall : ∀ k' ∈ ks, Disjoint (T k ∪ I) (T k') := fun k' hk' =>
            Finset.disjoint_union_left.mpr ⟨hT.1 k' hk', hI.2 k' hk'⟩
          have hsecond : K k ∪ J ⊆ (T k ∪ I) ∪ J := Finset.union_subset_union_left kept.subset
          have hboth := ih rest' hT.2
            (fun k' hk' => (hfall k' hk').mono_left ((Finset.filter_subset ..).trans Finset.sdiff_subset))
            (fun k' hk' => Disjoint.mono_left ((Finset.filter_subset ..).trans (Finset.sdiff_subset.trans hsecond))
              (Finset.disjoint_union_left.mpr ⟨hfall k' hk', hJ.2 k' hk'⟩))
            (hdisj.mono (Finset.filter_subset ..) (Finset.filter_subset ..))
          rw [← Finset.filter_union, ← hrejected, Finset.union_assoc] at hboth
          have hsum : ((T k ∪ I) \ K k).val + R + (((K k ∪ J) \ K' k).val + R') =
              ((T k ∪ (I ∪ J)) \ K' k).val + (R + R') := by
            rw [← Finset.union_assoc, hrejected, union_val hdisj]
            abel
          rw [hsum]
          exact .cons (Finset.union_assoc (T k) I J ▸ kept.absorb kept') hboth

end Cascade

end Semanticore.Lib
