import Semanticore.Lib.Guarded

/-!
# Linearization

The calls on a guarded object answer as if each had run at once at the moment it loaded the object.
-/

namespace Semanticore.Lib.Guarded

variable {D C A : Type} {O : Object D C A} {s s' : System D C A} {i j : Nat} {es : List (Event C A)}

/-! ## The object -/

/-- Numbered calls and their answers, run one after the other from `d`; they leave `d'`. -/
inductive Serial (O : Object D C A) (d : D) : List (Nat × C × A) → D → Prop
  | nil : Serial O d [] d
  | snoc {lin : List (Nat × C × A)} {d' : D} (i : Nat) (c : C) (h : Serial O d lin d') :
      Serial O d (lin ++ [(i, c, (O.exec d' c).1)]) (O.exec d' c).2

/-- The object is `cur`, or will be when the call that works on it has written what it has to. Until then calls that
peek do not see a difference. -/
structure Memory (O : Object D C A) (s : System D C A) (cur : D) : Prop where
  calm : (∀ i c ds a, s.phases i ≠ .working c ds a) → s.object = cur
  settled : ∀ i c ds a, s.phases i = .working c ds a → ds.getLast?.getD s.object = cur
  shown : s.writer = none → ∀ c, O.mode c = .peek → (O.exec s.object c).1 = (O.exec cur c).1
  hidden : s.writer = none → ∀ i c ds a, s.phases i = .working c ds a → ∀ d ∈ ds, ∀ c', O.mode c' = .peek →
    (O.exec d c').1 = (O.exec cur c').1

variable {cur : D}

theorem Memory.start (O : Object D C A) (d : D) : Memory O (System.start d) d where
  calm _ := rfl
  settled i c ds a hi := by cases hi
  shown _ _ _ := rfl
  hidden _ i c ds a hi := by cases hi

/-- A step of a call that does not work on the object. -/
theorem Memory.quiet (h : Memory O s cur) {p : Phase D C A} {writer mutex : Option Nat} {readers : Finset Nat}
    (hi : ∀ c ds a, s.phases i ≠ .working c ds a) (hp : ∀ c ds a, p ≠ .working c ds a)
    (hwriter : writer = none → s.writer = none) : Memory O { s.put i p with writer, readers, mutex } cur := by
  have hsame : ∀ j c ds a, (s.put i p).phases j = .working c ds a ↔ s.phases j = .working c ds a := by
    intro j c ds a
    by_cases hj : j = i
    · subst hj
      rw [System.phases_put_self]
      exact iff_of_false (hp c ds a) (hi c ds a)
    · rw [System.phases_put_ne _ _ hj]
  exact {
    calm := fun hcalm => h.calm fun j c ds a hj => hcalm j c ds a ((hsame j c ds a).mpr hj)
    settled := fun j c ds a hj => h.settled j c ds a ((hsame j c ds a).mp hj)
    shown := fun hw => h.shown (hwriter hw)
    hidden := fun hw j c ds a hj => h.hidden (hwriter hw) j c ds a ((hsame j c ds a).mp hj) }

/-- The object when the call that owns the mutex does not work on it, or has nothing left to write. -/
theorem Memory.object_eq (h : Memory O s cur) (hlocks : Locks O s) {c : C} (howns : (s.phases i).owning = some c)
    (hi : ∀ c ds a, s.phases i = .working c ds a → ds = []) : s.object = cur := by
  by_cases hworks : ∃ c ds a, s.phases i = .working c ds a
  · obtain ⟨c', ds, a, hworks⟩ := hworks
    have hlast := h.settled i c' ds a hworks
    rw [hi c' ds a hworks] at hlast
    exact hlast
  · refine h.calm fun j c' ds a hj => ?_
    have hji : j = i := hlocks.owner howns (by rw [hj]; rfl)
    subst hji
    exact hworks ⟨c', ds, a, hj⟩

theorem Memory.load (h : Memory O s cur) (hlocks : Locks O s) {c : C} (hi : s.phases i = .locked c) :
    Memory O (s.put i (.working c (O.interim s.object c ++ [(O.exec s.object c).2]) (O.exec s.object c).1))
      (O.exec cur c).2 := by
  have howns : (s.phases i).owning = some c := by rw [hi]; rfl
  have hobject : s.object = cur := h.object_eq hlocks howns fun _ _ _ hworks => by cases hi.symm.trans hworks
  -- a call that works is the one that owns the mutex
  have honly : ∀ {j : Nat} {c' : C} {ds : List D} {a : A}, s.phases j = .working c' ds a → False := by
    intro j c' ds a hj
    obtain rfl := hlocks.owner howns (by rw [hj]; rfl)
    cases hi.symm.trans hj
  -- without an exclusive call this one is shared
  have hstable : s.writer = none → ∀ d ∈ O.interim cur c ++ [(O.exec cur c).2], ∀ c', O.mode c' = .peek →
      (O.exec d c').1 = (O.exec cur c').1 := by
    intro hwriter d hd c' hc'
    have hshared : O.mode c = .shared := by
      have hpeek := hlocks.peeks i c howns
      have hexclusive : O.mode c ≠ .exclusive := by
        intro hc
        cases hwriter.symm.trans ((hlocks.writer i).mpr ⟨c, by rw [hi]; rfl, hc⟩)
      cases hc : O.mode c with
      | peek => exact (hpeek hc).elim
      | shared => rfl
      | exclusive => exact (hexclusive hc).elim
    exact O.peek_stable cur c' c hc' hshared d hd
  have hfinal : (O.exec cur c).2 ∈ O.interim cur c ++ [(O.exec cur c).2] := by simp
  have hwork : ∀ {j : Nat} {c' : C} {ds : List D} {a : A},
      (s.put i (.working c (O.interim s.object c ++ [(O.exec s.object c).2]) (O.exec s.object c).1)).phases j =
        .working c' ds a → ds = O.interim cur c ++ [(O.exec cur c).2] := by
    intro j c' ds a hj
    by_cases hji : j = i
    · subst hji
      rw [System.phases_put_self] at hj
      cases hj
      rw [hobject]
    · rw [System.phases_put_ne _ _ hji] at hj
      exact (honly hj).elim
  refine ⟨fun hcalm => (hcalm i _ _ _ (System.phases_put_self ..)).elim, fun j c' ds a hj => ?_,
    fun hwriter c' hc' => ?_, fun hwriter j c' ds a hj d hd c'' hc'' => ?_⟩
  · rw [hwork hj]
    simp
  · rw [System.object_put, hobject]
    exact (hstable hwriter _ hfinal c' hc').symm
  · rw [hwork hj] at hd
    rw [hstable hwriter d hd c'' hc'', hstable hwriter _ hfinal c'' hc'']

theorem Memory.write (h : Memory O s cur) (hlocks : Locks O s) {c : C} {d : D} {ds : List D} {a : A}
    (hi : s.phases i = .working c (d :: ds) a) :
    Memory O { s.put i (.working c ds a) with object := d } cur := by
  have howns : (s.phases i).owning = some c := by rw [hi]; rfl
  have hwork : ∀ {j : Nat} {c' : C} {ds' : List D} {a' : A}, (s.put i (.working c ds a)).phases j = .working c' ds' a' →
      ds' = ds := by
    intro j c' ds' a' hj
    by_cases hji : j = i
    · subst hji
      rw [System.phases_put_self] at hj
      cases hj
      rfl
    · rw [System.phases_put_ne _ _ hji] at hj
      exact (hji (hlocks.owner howns (by rw [hj]; rfl))).elim
  refine ⟨fun hcalm => (hcalm i _ _ _ (System.phases_put_self ..)).elim, fun j c' ds' a' hj => ?_,
    fun hwriter => h.hidden hwriter i c _ a hi d (List.mem_cons_self ..),
    fun hwriter j c' ds' a' hj d' hd' => h.hidden hwriter i c _ a hi d' (List.mem_cons_of_mem _ (hwork hj ▸ hd'))⟩
  obtain rfl := hwork hj
  have hlast := h.settled i c _ a hi
  rw [List.getLast?_cons, Option.getD_some] at hlast
  exact hlast

/-- A call that leaves an exclusive lock leaves the object as it is to stay. -/
theorem Memory.release (h : Memory O s cur) (hlocks : Locks O s) {c : C} {a : A} (hi : s.phases i = .unlocked c a)
    (hc : O.mode c = .exclusive) : Memory O { s.put i (.left a) with writer := none } cur := by
  have hnone : ∀ j c' ds a', s.phases j ≠ .working c' ds a' := by
    intro j c' ds a' hj
    by_cases hji : j = i
    · subst hji
      cases hi.symm.trans hj
    · exact hlocks.shared (i := i) hji (by rw [hi]; rfl) (by rw [hj]; rfl) hc
  have hobject := h.calm hnone
  have hstill : ∀ j c' ds a', (s.put i (.left a)).phases j ≠ .working c' ds a' := by
    intro j c' ds a' hj
    by_cases hji : j = i
    · subst hji
      rw [System.phases_put_self] at hj
      cases hj
    · rw [System.phases_put_ne _ _ hji] at hj
      exact hnone j c' ds a' hj
  exact ⟨fun _ => hobject, fun j c' ds a' hj => (hstill j c' ds a' hj).elim, fun _ c' _ => by rw [← hobject]; rfl,
    fun _ j c' ds a' hj => (hstill j c' ds a' hj).elim⟩

theorem Memory.unlock (h : Memory O s cur) (hlocks : Locks O s) {c : C} {a : A} (hi : s.phases i = .working c [] a) :
    Memory O { s.put i (.unlocked c a) with mutex := none } cur := by
  have howns : (s.phases i).owning = some c := by rw [hi]; rfl
  have hobject := h.object_eq hlocks howns fun _ _ _ hworks => by
    cases hi.symm.trans hworks
    rfl
  have hstill : ∀ j c' ds a', (s.put i (.unlocked c a)).phases j ≠ .working c' ds a' := by
    intro j c' ds a' hj
    by_cases hji : j = i
    · subst hji
      rw [System.phases_put_self] at hj
      cases hj
    · rw [System.phases_put_ne _ _ hji] at hj
      exact hji (hlocks.owner howns (by rw [hj]; rfl))
  exact ⟨fun _ => hobject, fun j c' ds a' hj => (hstill j c' ds a' hj).elim, h.shown,
    fun _ j c' ds a' hj => (hstill j c' ds a' hj).elim⟩

/-! ## The history -/

/-- The history and the order in which the calls loaded the object belong together. -/
structure Record (phases : Nat → Phase D C A) (h : List (Event C A)) (lin : List (Nat × C × A)) : Prop where
  asked : ∀ i c, (phases i).awaits = some c → .called i c ∈ h
  fresh : ∀ i c, .called i c ∈ h → phases i ≠ .unused
  gave : ∀ i a, (phases i).answer = some a → ∃ c, (i, c, a) ∈ lin
  answered : ∀ i a, .answered i a ∈ h → phases i = .done ∧ ∃ c, (i, c, a) ∈ lin
  listed : ∀ i c a, (i, c, a) ∈ lin → .called i c ∈ h ∧ (phases i).awaits = none
  nodup : (lin.map (·.1)).Nodup
  order : ∀ i a j c, [.answered i a, .called j c].Sublist h → j ∈ lin.map (·.1) → [i, j].Sublist (lin.map (·.1))

variable {phases : Nat → Phase D C A} {h : List (Event C A)} {lin : List (Nat × C × A)}

theorem Record.start : Record (fun _ => .unused : Nat → Phase D C A) [] [] := by
  constructor <;> simp [Phase.awaits, Phase.answer]

theorem Record.listed_id (hrec : Record phases h lin) (hi : i ∈ lin.map (·.1)) :
    (∃ c, .called i c ∈ h) ∧ (phases i).awaits = none := by
  obtain ⟨⟨i, c, a⟩, hmem, rfl⟩ := List.mem_map.mp hi
  exact ⟨⟨c, (hrec.listed i c a hmem).1⟩, (hrec.listed i c a hmem).2⟩

theorem Record.unused (hrec : Record phases h lin) (hi : phases i = .unused) : i ∉ lin.map (·.1) := by
  intro hmem
  obtain ⟨⟨c, hc⟩, -⟩ := hrec.listed_id hmem
  exact hrec.fresh i c hc hi

/-- A pair of events one of which is the last. -/
theorem sublist_pair_snoc {α : Type} {x y e : α} {l : List α} (hsub : [x, y].Sublist (l ++ [e])) :
    [x, y].Sublist l ∨ (x ∈ l ∧ y = e) := by
  obtain ⟨l₁, l₂, heq, h₁, h₂⟩ := List.sublist_append_iff.mp hsub
  rcases List.sublist_singleton.mp h₂ with rfl | rfl
  · rw [List.append_nil] at heq
    exact Or.inl (heq ▸ h₁)
  · have hsplit : [x] ++ [y] = l₁ ++ [e] := heq
    obtain ⟨rfl, hlast⟩ := List.append_inj' hsplit rfl
    exact Or.inr ⟨List.singleton_sublist.mp h₁, List.singleton_inj.mp hlast⟩

theorem Record.call (hrec : Record phases h lin) (hi : phases i = .unused) (c : C) :
    Record (Function.update phases i (.waiting c)) (h ++ [.called i c]) lin where
  asked j c' hj := by
    by_cases hji : j = i
    · subst hji
      rw [Function.update_self] at hj
      cases hj
      simp
    · rw [Function.update_of_ne hji] at hj
      exact List.mem_append_left _ (hrec.asked j c' hj)
  fresh j c' hj := by
    by_cases hji : j = i
    · subst hji
      rw [Function.update_self]
      simp
    · rw [Function.update_of_ne hji]
      simp only [List.mem_append, List.mem_singleton, Event.called.injEq, hji, false_and, or_false] at hj
      exact hrec.fresh j c' hj
  gave j a hj := by
    by_cases hji : j = i
    · subst hji
      rw [Function.update_self] at hj
      cases hj
    · rw [Function.update_of_ne hji] at hj
      exact hrec.gave j a hj
  answered j a hj := by
    simp only [List.mem_append, List.mem_singleton, reduceCtorEq, or_false] at hj
    obtain ⟨hdone, hmem⟩ := hrec.answered j a hj
    have hji : j ≠ i := by
      rintro rfl
      cases hi.symm.trans hdone
    rw [Function.update_of_ne hji]
    exact ⟨hdone, hmem⟩
  listed j c' a hj := by
    obtain ⟨hcalled, hawaits⟩ := hrec.listed j c' a hj
    have hji : j ≠ i := by
      rintro rfl
      exact hrec.fresh j c' hcalled hi
    rw [Function.update_of_ne hji]
    exact ⟨List.mem_append_left _ hcalled, hawaits⟩
  nodup := hrec.nodup
  order j a j' c' hsub hj' := by
    rcases sublist_pair_snoc hsub with hold | ⟨-, hnew⟩
    · exact hrec.order j a j' c' hold hj'
    · cases hnew
      exact (hrec.unused hi hj').elim

/-- A step that no caller sees, of a call that neither loads the object nor ends. -/
theorem Record.pass (hrec : Record phases h lin) {p : Phase D C A} (hdone : phases i ≠ .done)
    (hunused : p ≠ .unused) (hawaits : p.awaits = (phases i).awaits) (hanswer : p.answer = (phases i).answer) :
    Record (Function.update phases i p) h lin := by
  have hsame : ∀ j, (Function.update phases i p j).awaits = (phases j).awaits ∧
      (Function.update phases i p j).answer = (phases j).answer := by
    intro j
    by_cases hji : j = i
    · subst hji
      rw [Function.update_self]
      exact ⟨hawaits, hanswer⟩
    · rw [Function.update_of_ne hji]
      exact ⟨rfl, rfl⟩
  refine {
    asked := fun j c hj => hrec.asked j c ((hsame j).1 ▸ hj)
    fresh := fun j c hj => ?_
    gave := fun j a hj => hrec.gave j a ((hsame j).2 ▸ hj)
    answered := fun j a hj => ?_
    listed := fun j c a hj => ⟨(hrec.listed j c a hj).1, (hsame j).1 ▸ (hrec.listed j c a hj).2⟩
    nodup := hrec.nodup
    order := hrec.order }
  · by_cases hji : j = i
    · subst hji
      rw [Function.update_self]
      exact hunused
    · rw [Function.update_of_ne hji]
      exact hrec.fresh j c hj
  · obtain ⟨hj', hmem⟩ := hrec.answered j a hj
    have hji : j ≠ i := by
      rintro rfl
      exact hdone hj'
    rw [Function.update_of_ne hji]
    exact ⟨hj', hmem⟩

/-- A call loads the object: it takes its place in the order. -/
theorem Record.load (hrec : Record phases h lin) {c : C} {a : A} {p : Phase D C A} (hi : (phases i).awaits = some c)
    (hunused : p ≠ .unused) (hawaits : p.awaits = none) (hanswer : p.answer = some a) :
    Record (Function.update phases i p) h (lin ++ [(i, c, a)]) := by
  have hnot : i ∉ lin.map (·.1) := fun hmem => by cases hi.symm.trans (hrec.listed_id hmem).2
  refine {
    asked := fun j c' hj => ?_
    fresh := fun j c' hj => ?_
    gave := fun j a' hj => ?_
    answered := fun j a' hj => ?_
    listed := fun j c' a' hj => ?_
    nodup := ?_
    order := fun j a' j' c' hsub hj' => ?_ }
  · by_cases hji : j = i
    · subst hji
      rw [Function.update_self, hawaits] at hj
      cases hj
    · rw [Function.update_of_ne hji] at hj
      exact hrec.asked j c' hj
  · by_cases hji : j = i
    · subst hji
      rw [Function.update_self]
      exact hunused
    · rw [Function.update_of_ne hji]
      exact hrec.fresh j c' hj
  · by_cases hji : j = i
    · subst hji
      rw [Function.update_self, hanswer] at hj
      cases hj
      exact ⟨c, by simp⟩
    · rw [Function.update_of_ne hji] at hj
      obtain ⟨c', hmem⟩ := hrec.gave j a' hj
      exact ⟨c', List.mem_append_left _ hmem⟩
  · obtain ⟨hdone, c', hmem⟩ := hrec.answered j a' hj
    have hji : j ≠ i := by
      rintro rfl
      rw [hdone] at hi
      cases hi
    rw [Function.update_of_ne hji]
    exact ⟨hdone, c', List.mem_append_left _ hmem⟩
  · rcases List.mem_append.mp hj with hold | hnew
    · obtain ⟨hcalled, hnone⟩ := hrec.listed j c' a' hold
      have hji : j ≠ i := by
        rintro rfl
        cases hi.symm.trans hnone
      rw [Function.update_of_ne hji]
      exact ⟨hcalled, hnone⟩
    · cases List.mem_singleton.mp hnew
      rw [Function.update_self]
      exact ⟨hrec.asked i c hi, hawaits⟩
  · rw [List.map_append]
    exact List.Nodup.append hrec.nodup (List.nodup_singleton _) (by simpa using hnot)
  · rw [List.map_append] at hj' ⊢
    rcases List.mem_append.mp hj' with hold | hnew
    · exact (hrec.order j a' j' c' hsub hold).trans (List.sublist_append_left ..)
    · obtain rfl : j' = i := by simpa using hnew
      -- whoever has been answered has its place already
      have hanswered : Event.answered j a' ∈ h := hsub.subset (List.mem_cons_self ..)
      obtain ⟨-, c'', hmem⟩ := hrec.answered j a' hanswered
      have hj : j ∈ lin.map (·.1) := List.mem_map.mpr ⟨_, hmem, rfl⟩
      exact List.Sublist.append (List.singleton_sublist.mpr hj) (List.Sublist.refl _)

theorem Record.answer (hrec : Record phases h lin) {a : A} (hi : phases i = .left a) :
    Record (Function.update phases i .done) (h ++ [.answered i a]) lin where
  asked j c hj := by
    by_cases hji : j = i
    · subst hji
      rw [Function.update_self] at hj
      cases hj
    · rw [Function.update_of_ne hji] at hj
      exact List.mem_append_left _ (hrec.asked j c hj)
  fresh j c hj := by
    by_cases hji : j = i
    · subst hji
      rw [Function.update_self]
      simp
    · rw [Function.update_of_ne hji]
      simp only [List.mem_append, List.mem_singleton, reduceCtorEq, or_false] at hj
      exact hrec.fresh j c hj
  gave j a' hj := by
    by_cases hji : j = i
    · subst hji
      rw [Function.update_self] at hj
      cases hj
    · rw [Function.update_of_ne hji] at hj
      exact hrec.gave j a' hj
  answered j a' hj := by
    rcases List.mem_append.mp hj with hold | hnew
    · obtain ⟨hdone, hmem⟩ := hrec.answered j a' hold
      have hji : j ≠ i := by
        rintro rfl
        cases hi.symm.trans hdone
      rw [Function.update_of_ne hji]
      exact ⟨hdone, hmem⟩
    · cases List.mem_singleton.mp hnew
      rw [Function.update_self]
      exact ⟨rfl, hrec.gave i a (by rw [hi]; rfl)⟩
  listed j c a' hj := by
    obtain ⟨hcalled, hnone⟩ := hrec.listed j c a' hj
    refine ⟨List.mem_append_left _ hcalled, ?_⟩
    by_cases hji : j = i
    · subst hji
      rw [Function.update_self]
      rfl
    · rw [Function.update_of_ne hji]
      exact hnone
  nodup := hrec.nodup
  order j a' j' c hsub hj' := by
    rcases sublist_pair_snoc hsub with hold | ⟨-, hnew⟩
    · exact hrec.order j a' j' c hold hj'
    · cases hnew

/-! ## Linearization -/

structure Inv (O : Object D C A) (d : D) (s : System D C A) (h : List (Event C A)) (lin : List (Nat × C × A))
    (cur : D) : Prop where
  locks : Locks O s
  memory : Memory O s cur
  serial : Serial O d lin cur
  record : Record s.phases h lin

variable {d : D}

theorem Inv.start (O : Object D C A) (d : D) : Inv O d (System.start d) [] [] d :=
  ⟨.start O d, .start O d, .nil, .start⟩

/-- A step extends the order by the call that loads the object, if one does. -/
theorem Inv.step (hinv : Inv O d s h lin cur) (hstep : Takes O s i es s') :
    ∃ lin' cur', Inv O d s' (h ++ es) lin' cur' := by
  have hlocks := hinv.locks.step hstep
  cases hstep with
  | call c hi =>
      exact ⟨lin, cur, hlocks, hinv.memory.quiet (by simp [hi]) (by simp) id, hinv.serial, hinv.record.call hi c⟩
  | exclude hi hc hwriter hreaders =>
      rw [List.append_nil]
      exact ⟨lin, cur, hlocks, hinv.memory.quiet (by simp [hi]) (by simp) (by simp), hinv.serial,
        hinv.record.pass (by simp [hi]) (by simp) (by rw [hi]; rfl) (by rw [hi]; rfl)⟩
  | share hi hc hwriter =>
      rw [List.append_nil]
      exact ⟨lin, cur, hlocks, hinv.memory.quiet (by simp [hi]) (by simp) id, hinv.serial,
        hinv.record.pass (by simp [hi]) (by simp) (by rw [hi]; rfl) (by rw [hi]; rfl)⟩
  | lock hi hc hmutex =>
      rw [List.append_nil]
      exact ⟨lin, cur, hlocks, hinv.memory.quiet (by simp [hi]) (by simp) id, hinv.serial,
        hinv.record.pass (by simp [hi]) (by simp) (by rw [hi]; rfl) (by rw [hi]; rfl)⟩
  | @peek c hi hc =>
      rw [List.append_nil]
      have hwriter : s.writer = none := by
        have hreads := (hinv.locks.readers i).mpr ⟨c, by rw [hi]; rfl, by simp [hc]⟩
        by_contra hw
        rw [hinv.locks.alone hw] at hreads
        exact Finset.notMem_empty i hreads
      have hanswer := hinv.memory.shown hwriter c hc
      have hserial := hinv.serial.snoc i c
      rw [O.peek_keeps cur c hc] at hserial
      refine ⟨_, cur, hlocks, hinv.memory.quiet (by simp [hi]) (by simp) id, hserial, ?_⟩
      exact hinv.record.load (by rw [hi]; rfl) (by simp) rfl (by rw [← hanswer]; rfl)
  | @load c hi =>
      rw [List.append_nil]
      have hobject : s.object = cur := hinv.memory.object_eq hinv.locks (c := c) (by rw [hi]; rfl) fun _ _ _ hworks => by
        cases hi.symm.trans hworks
      exact ⟨_, _, hlocks, hinv.memory.load hinv.locks hi, hinv.serial.snoc i c,
        hinv.record.load (by rw [hi]; rfl) (by simp) rfl (by rw [← hobject]; rfl)⟩
  | write hi =>
      rw [List.append_nil]
      exact ⟨lin, cur, hlocks, hinv.memory.write hinv.locks hi, hinv.serial,
        hinv.record.pass (by simp [hi]) (by simp) (by rw [hi]; rfl) (by rw [hi]; rfl)⟩
  | unlock hi =>
      rw [List.append_nil]
      exact ⟨lin, cur, hlocks, hinv.memory.unlock hinv.locks hi, hinv.serial,
        hinv.record.pass (by simp [hi]) (by simp) (by rw [hi]; rfl) (by rw [hi]; rfl)⟩
  | release hi hc =>
      rw [List.append_nil]
      exact ⟨lin, cur, hlocks, hinv.memory.release hinv.locks hi hc, hinv.serial,
        hinv.record.pass (by simp [hi]) (by simp) (by rw [hi]; rfl) (by rw [hi]; rfl)⟩
  | leave hi hc =>
      rw [List.append_nil]
      exact ⟨lin, cur, hlocks, hinv.memory.quiet (by simp [hi]) (by simp) id, hinv.serial,
        hinv.record.pass (by simp [hi]) (by simp) (by rw [hi]; rfl) (by rw [hi]; rfl)⟩
  | answer hi =>
      exact ⟨lin, cur, hlocks, hinv.memory.quiet (by simp [hi]) (by simp) id, hinv.serial, hinv.record.answer hi⟩

theorem Inv.run (O : Object D C A) (d : D) (schedule : List (Nat × Action C)) :
    ∃ lin cur, Inv O d (System.run O d schedule).1 (System.run O d schedule).2 lin cur := by
  induction schedule using List.reverseRecOn with
  | nil => exact ⟨[], d, .start O d⟩
  | append_singleton schedule next ih =>
      obtain ⟨lin, cur, hinv⟩ := ih
      have hrun : System.run O d (schedule ++ [next]) = System.advance O (System.run O d schedule) next := by
        simp [System.run, List.foldl_append]
      rw [hrun]
      unfold System.advance
      split
      · exact ⟨lin, cur, hinv⟩
      · exact hinv.step (takes_of_step ‹_›)

/-- The calls of a history in an order in which, one after the other, they give the same answers and leave `cur`. -/
structure Linearizes (O : Object D C A) (d : D) (h : List (Event C A)) (lin : List (Nat × C × A)) (cur : D) :
    Prop where
  serial : Serial O d lin cur
  nodup : (lin.map (·.1)).Nodup
  called : ∀ i c a, (i, c, a) ∈ lin → .called i c ∈ h
  answered : ∀ i a, .answered i a ∈ h → ∃ c, (i, c, a) ∈ lin
  order : ∀ i a j c, [.answered i a, .called j c].Sublist h → j ∈ lin.map (·.1) → [i, j].Sublist (lin.map (·.1))

/-- Every history has such an order, and what it leaves is what the object holds whenever nobody owns the mutex. -/
theorem linearizable (O : Object D C A) (d : D) (schedule : List (Nat × Action C)) : ∃ lin cur,
    Linearizes O d (System.run O d schedule).2 lin cur ∧
      ((System.run O d schedule).1.mutex = none → (System.run O d schedule).1.object = cur) := by
  obtain ⟨lin, cur, hinv⟩ := Inv.run O d schedule
  refine ⟨lin, cur, ⟨hinv.serial, hinv.record.nodup, fun i c a hmem => (hinv.record.listed i c a hmem).1,
    fun i a hmem => (hinv.record.answered i a hmem).2, hinv.record.order⟩, fun hmutex => ?_⟩
  refine hinv.memory.calm fun i c ds a hi => ?_
  cases hmutex.symm.trans ((hinv.locks.mutex i).mpr ⟨c, by rw [hi]; rfl⟩)

theorem takes_used (hstep : Takes O s i es s') : s'.phases i ≠ .unused := by
  cases hstep <;> simp [System.put]

/-- A call in what a step adds to the history is the one the step makes. -/
theorem takes_called (hstep : Takes O s i es s') {c : C} (hc : .called j c ∈ es) : j = i ∧ s.phases i = .unused ∧
    es = [.called i c] := by
  cases hstep with
  | call c' hi =>
      cases List.mem_singleton.mp hc
      exact ⟨rfl, hi, rfl⟩
  | answer => cases List.mem_singleton.mp hc
  | _ => exact (List.not_mem_nil hc).elim

/-- A number stands for one call. -/
structure Once (s : System D C A) (h : List (Event C A)) : Prop where
  used : ∀ i c, .called i c ∈ h → s.phases i ≠ .unused
  once : ∀ i c c', .called i c ∈ h → .called i c' ∈ h → c = c'

theorem Once.step {h : List (Event C A)} (honce : Once s h) (hstep : Takes O s i es s') : Once s' (h ++ es) where
  used j c hc := by
    by_cases hji : j = i
    · exact hji ▸ takes_used hstep
    · rw [takes_other hstep hji]
      rcases List.mem_append.mp hc with hc | hc
      · exact honce.used j c hc
      · exact (hji (takes_called hstep hc).1).elim
  once j c c' hc hc' := by
    rcases List.mem_append.mp hc with hc | hc <;> rcases List.mem_append.mp hc' with hc' | hc'
    · exact honce.once j c c' hc hc'
    · obtain ⟨rfl, hunused, -⟩ := takes_called hstep hc'
      exact (honce.used j c hc hunused).elim
    · obtain ⟨rfl, hunused, -⟩ := takes_called hstep hc
      exact (honce.used j c' hc' hunused).elim
    · rw [(takes_called hstep hc).2.2, List.mem_singleton] at hc'
      cases hc'
      rfl

theorem Once.run (O : Object D C A) (d : D) (schedule : List (Nat × Action C)) :
    Once (System.run O d schedule).1 (System.run O d schedule).2 := by
  induction schedule using List.reverseRecOn with
  | nil => exact ⟨fun i c hc => (List.not_mem_nil hc).elim, fun i c c' hc => (List.not_mem_nil hc).elim⟩
  | append_singleton schedule next ih =>
      have hrun : System.run O d (schedule ++ [next]) = System.advance O (System.run O d schedule) next := by
        simp [System.run, List.foldl_append]
      rw [hrun]
      unfold System.advance
      split
      · exact ih
      · exact ih.step (takes_of_step ‹_›)

/-! ## The order as a list of calls -/

/-- The answers of calls that run one after the other, and what they leave. -/
def Object.replay (O : Object D C A) (d : D) : List C → List A × D
  | [] => ([], d)
  | c :: cs => ((O.exec d c).1 :: (O.replay (O.exec d c).2 cs).1, (O.replay (O.exec d c).2 cs).2)

theorem Object.replay_snoc (O : Object D C A) (d : D) (cs : List C) (c : C) : O.replay d (cs ++ [c]) =
    ((O.replay d cs).1 ++ [(O.exec (O.replay d cs).2 c).1], (O.exec (O.replay d cs).2 c).2) := by
  induction cs generalizing d with
  | nil => rfl
  | cons c' cs ih => rw [List.cons_append, replay, ih]; rfl

theorem Serial.replay {d : D} {lin : List (Nat × C × A)} (h : Serial O d lin cur) :
    O.replay d (lin.map (·.2.1)) = (lin.map (·.2.2), cur) := by
  induction h with
  | nil => rfl
  | snoc i c _ ih => simp only [List.map_append, List.map_cons, List.map_nil, Object.replay_snoc, ih]

/-- Of two answered calls, one made after the other was answered, the order has the earlier one first. -/
theorem Linearizes.pair {d : D} {h : List (Event C A)} {lin : List (Nat × C × A)} (hlin : Linearizes O d h lin cur)
    {i j : Nat} {c c' : C} {a a' : A} (hi : (i, c, a) ∈ lin) (hj : (j, c', a') ∈ lin)
    (horder : [.answered i a, .called j c'].Sublist h) : [(i, c, a), (j, c', a')].Sublist lin := by
  have hsub := hlin.order i a j c' horder (List.mem_map_of_mem hj)
  obtain ⟨l, hl, hmap⟩ := List.sublist_map_iff.mp hsub
  have hunique : ∀ x ∈ lin, ∀ y ∈ lin, x.1 = y.1 → x = y := fun x hx y hy heq =>
    List.inj_on_of_nodup_map hlin.nodup hx hy heq
  match l, hmap with
  | [x, y], hmap =>
      obtain ⟨hx, hy, -⟩ : i = x.1 ∧ j = y.1 ∧ True := by simpa using hmap
      have hx := hunique x (hl.mem (by simp)) _ hi hx.symm
      have hy := hunique y (hl.mem (by simp)) _ hj hy.symm
      rwa [hx, hy] at hl

/-- Of two events of a history one comes first. -/
theorem sublist_pair_or {α : Type} {x y : α} {l : List α} (hx : x ∈ l) (hy : y ∈ l) (hne : x ≠ y) :
    [x, y].Sublist l ∨ [y, x].Sublist l := by
  obtain ⟨s, t, rfl⟩ := List.append_of_mem hx
  rcases List.mem_append.mp hy with hy | hy
  · exact Or.inr ((List.singleton_sublist.mpr hy).append (List.singleton_sublist.mpr List.mem_cons_self))
  · have hy : y ∈ t := (List.mem_cons.mp hy).resolve_left hne.symm
    exact Or.inl ((List.cons_sublist_cons.mpr (List.singleton_sublist.mpr hy)).trans (List.sublist_append_right s _))

/-- A call is answered after the calls were made that take effect before it. -/
theorem Linearizes.called_before {d : D} {h : List (Event C A)} {before rest : List (Nat × C × A)} {i j : Nat} {c c' : C}
    {a a' : A} (hlin : Linearizes O d h (before ++ (j, c', a') :: rest) cur) (hi : (i, c, a) ∈ (j, c', a') :: rest)
    (hanswered : .answered i a ∈ h) : [.called j c', .answered i a].Sublist h := by
  have hcalled : .called j c' ∈ h := hlin.called j c' a' (List.mem_append_right _ List.mem_cons_self)
  rcases sublist_pair_or hcalled hanswered (fun heq => by cases heq) with horder | horder
  · exact horder
  -- answered before the other was called, `i` would take effect before `j`
  have hids := hlin.order i a j c' horder (List.mem_map_of_mem (List.mem_append_right before List.mem_cons_self))
  have hnodup := hlin.nodup
  have hmem : i ∈ j :: rest.map (·.1) := List.mem_map_of_mem (f := (·.1)) hi
  rw [List.map_append, List.map_cons] at hids hnodup
  obtain ⟨-, htail, hdisjoint⟩ := List.nodup_append'.mp hnodup
  have hj : j ∉ rest.map (·.1) := (List.nodup_cons.mp htail).1
  obtain ⟨l₁, l₂, heq, h₁, h₂⟩ := List.sublist_append_iff.mp hids
  cases l₁ with
  | cons x l₁ =>
      obtain ⟨rfl, -⟩ := List.cons.inj heq
      exact (hdisjoint (h₁.mem List.mem_cons_self) hmem).elim
  | nil =>
      rw [List.nil_append] at heq
      exact (hj ((heq ▸ h₂).tail.mem List.mem_cons_self)).elim

end Semanticore.Lib.Guarded
