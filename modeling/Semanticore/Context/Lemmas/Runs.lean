import Semanticore.Context.Lemmas.Query
import Semanticore.Context.Sound

/-!
# Steps and runs

What every operation does to a Session, and the invariant along whole runs.
-/

namespace Semanticore.Context
open Semanticore.Core Semanticore.Lib

variable {P : Platform} {cfg : Settings} {w w' : World} {ev : Event} {evs : List Event}
  {L : List (ItemId × ContextItem)} {σ τ : Session}

/-! ## Operations -/

theorem op_spec (P : Platform) (cfg : Settings) (op : Op) (w : World) :
    Runs Later (op.exec P cfg) w (fun _ w' => Finishes P cfg op w w') (Halts P cfg op w) := by
  cases op with
  | add scope item =>
      refine Runs.map (add_spec.mono (fun id w' _ h => ?_) fun _ _ _ h => h)
      obtain ⟨-, hadm, now, rfl, hle', -, htrail⟩ := h
      exact ⟨_, .added _ rfl hadm w.now_le_reading hle', htrail⟩
  | addBatch scope items =>
      refine Runs.map ((addBatch_spec (.addBatch scope items) rfl).mono (fun id w' _ h => ?_) fun _ _ _ h => h)
      obtain ⟨-, hadm, now, rfl, hle', -, htrail⟩ := h
      exact ⟨_, .added _ rfl hadm w.now_le_reading hle', htrail⟩
  | remove scope id =>
      refine Runs.map (remove_spec.mono (fun found w' _ h => ?_) fun _ _ _ h => h)
      cases found with
      | false => exact .of_trail (h.2 ▸ .refl)
      | true => exact .of_trail (h.2 ▸ (Act.of_scopeOf h.1).trail)
  | query q =>
      refine Runs.map (query_spec.mono (fun r w' _ h => ?_) fun _ _ _ h => h)
      obtain ⟨pattern, now, -, rfl, hle', -, -, htrail, -⟩ := h
      exact ⟨_, .answered _ _ w.now_le_reading hle', htrail⟩
  | promote ids source target =>
      refine Runs.map (promote_spec.mono (fun n w' _ h => ?_) fun _ _ _ h => h)
      obtain ⟨-, -, h⟩ := h
      split at h
      · exact .of_trail (h.2 ▸ .refl)
      · exact .of_trail h.2.2
  | evict scope criteria =>
      exact Runs.map (evict_spec.mono (fun n w' _ h => .of_trail h.2) fun _ _ _ h => h)
  | reason scope => exact Runs.map (Runs.exit (.refused (by simp [nyi]) rfl))
  | validateShapes data shapes => exact Runs.map (Runs.exit (.refused (by simp) rfl))
  | evaluateDatalog scope => exact Runs.map (Runs.exit (.refused (by simp) rfl))

/-! ## Steps -/

section
variable {Q : Reply → World → Prop} {E : Halt → World → Prop}

theorem perform_ok {reply : Reply} (hspec : Runs Later (ev.op.exec P cfg) (w.prepare ev) Q E)
    (h : (w.perform P cfg ev).1 = .ok reply) : Q reply (w.step P cfg ev) :=
  (hspec.ok (show _ = (_, w.step P cfg ev) from Prod.ext h rfl)).2

theorem perform_error {halt : Halt} (hspec : Runs Later (ev.op.exec P cfg) (w.prepare ev) Q E)
    (h : (w.perform P cfg ev).1 = .error halt) : E halt (w.step P cfg ev) :=
  (hspec.error (show _ = (_, w.step P cfg ev) from Prod.ext h rfl)).2

/-- What a method left that returned `a`, by its specification. -/
theorem perform_map {α : Type} {x : SessionM α} {f : α → Reply} {Q : α → World → Prop} {a : α}
    (hf : Function.Injective f) (hexec : ev.op.exec P cfg = f <$> x) (hspec : Runs Later x (w.prepare ev) Q E)
    (h : (w.perform P cfg ev).1 = .ok (f a)) : Q a (w.step P cfg ev) := by
  have hmap : Runs Later (ev.op.exec P cfg) (w.prepare ev) (fun reply w' => ∃ b, f b = reply ∧ Q b w') E := by
    rw [hexec]
    exact Runs.map (hspec.mono (fun b _ _ hb => ⟨b, rfl, hb⟩) fun _ _ _ h => h)
  obtain ⟨b, hb, hQ⟩ := perform_ok hmap h
  exact hf hb ▸ hQ

end

theorem clean_prepare (h : ev.Clean) : (w.prepare ev).Clean := h

/-- What an event does: a first stage, then actions; a half move is left only if a transaction fails. -/
theorem step_spec (P : Platform) (cfg : Settings) (w : World) (ev : Event) :
    ∃ τ, Begins P cfg w.now (w.step P cfg ev).now ev.op (w.prepare ev).session τ ∧
      Ends P cfg τ (w.step P cfg ev).session ∧ (ev.Clean → Trail P cfg τ (w.step P cfg ev).session) := by
  refine (op_spec P cfg ev.op (w.prepare ev)).final (C := fun w' => ∃ τ, Begins P cfg w.now w'.now ev.op
    (w.prepare ev).session τ ∧ Ends P cfg τ w'.session ∧ (ev.Clean → Trail P cfg τ w'.session)) ?_ ?_
  · rintro r w' hR ⟨τ, hbegin, htrail⟩
    exact ⟨τ, hbegin, htrail.ends, fun _ => htrail⟩
  · rintro h w' hR hhalts
    cases hhalts with
    | refused he hsame => exact ⟨_, .nothing, Ends.of_eq hsame, fun _ => hsame ▸ .refl⟩
    | overflow hop hfull hsame => exact ⟨_, .nothing, Ends.of_eq hsame, fun _ => hsame ▸ .refl⟩
    | failed hunclean hbegin hends => exact ⟨_, hbegin, hends, fun hc => (hunclean (clean_prepare hc)).elim⟩

/-- What an operation issued, by how it began. -/
theorem issuedBy_of_begins {t t' : Instant} (hbegin : Begins P cfg t t' ev.op (w.prepare ev).session τ)
    (hends : Ends P cfg τ (w.step P cfg ev).session) :
    (∃ scope items now, ev.op.batch = some (scope, items) ∧ Admissible (w.prepare ev).session items ∧
        τ = (w.prepare ev).session.added P scope items now ∧
        w.issuedBy P cfg ev = (w.prepare ev).session.batch items) ∨
      SamePlaces (w.prepare ev).session τ ∧ w.issuedBy P cfg ev = [] := by
  have hnext := nextId_ends hends
  generalize hσ : (w.prepare ev).session = σ at *
  have hnext₀ : w.session.state.nextId = σ.state.nextId := hσ ▸ rfl
  generalize hevop : ev.op = op at hbegin ⊢
  cases hbegin with
  | nothing => exact Or.inr ⟨⟨fun _ => rfl, rfl, rfl⟩, if_pos (hnext.trans hnext₀.symm)⟩
  | answered now ids hle hle' =>
      have hsame := samePlaces_answered cfg σ now ids
      exact Or.inr ⟨hsame, if_pos (hnext.trans (hsame.nextId.trans hnext₀.symm))⟩
  | @added op scope items σ now hop hadm hle hle' =>
      refine Or.inl ⟨scope, items, now, hop, hadm, rfl, ?_⟩
      have hitems : ev.op.newItems = items := by simp [Op.newItems, hevop, hop]
      unfold World.issuedBy Session.batch
      rw [hnext, hnext₀, hitems]
      split
      · -- An unchanged `next_id` means an empty batch.
        rename_i heq
        have hval : (σ.added P scope items now).state.nextId.toNat = _ := Session.nextId_added hadm.room
        rw [heq] at hval
        have hlen : items.length = 0 := by omega
        simp [List.length_eq_zero_iff.mp hlen]
      · rfl

theorem samePlaces_prepare (w : World) (ev : Event) : SamePlaces w.session (w.prepare ev).session :=
  ⟨fun _ => rfl, rfl, rfl⟩

/-- The first stage keeps the invariant, over what was issued before and what it issues. -/
theorem Sound.begins {t t' : Instant} (hσ : Sound P L w.session)
    (hbegin : Begins P cfg t t' ev.op (w.prepare ev).session τ) (hends : Ends P cfg τ (w.step P cfg ev).session) :
    Sound P (L ++ w.issuedBy P cfg ev) τ := by
  have hprep : Sound P L (w.prepare ev).session := hσ.same (samePlaces_prepare w ev)
  rcases issuedBy_of_begins hbegin hends with ⟨scope, items, now, -, hadm, rfl, hissued⟩ | ⟨hsame, hissued⟩
  · rw [hissued]
    exact hprep.added hadm
  · rw [hissued, List.append_nil]
    exact hprep.same hsame

theorem Sound.step (hσ : Sound P L w.session) (ev : Event) :
    Sound P (L ++ w.issuedBy P cfg ev) (w.step P cfg ev).session := by
  obtain ⟨τ, hbegin, hends, -⟩ := step_spec P cfg w ev
  exact (hσ.begins hbegin hends).ends hends

theorem Settled.begins {t t' : Instant} (hsettled : Settled w.session) (hσ : Sound P L w.session)
    (hbegin : Begins P cfg t t' ev.op (w.prepare ev).session τ) (hends : Ends P cfg τ (w.step P cfg ev).session) :
    Settled τ := by
  have hprep : Sound P L (w.prepare ev).session := hσ.same (samePlaces_prepare w ev)
  have hprep' : Settled (w.prepare ev).session := hsettled.same (samePlaces_prepare w ev)
  rcases issuedBy_of_begins hbegin hends with ⟨scope, items, now, -, hadm, rfl, -⟩ | ⟨hsame, -⟩
  · exact hprep'.added hprep hadm
  · exact hprep'.same hsame

theorem Settled.step (hsettled : Settled w.session) (hσ : Sound P L w.session) (hclean : ev.Clean) :
    Settled (w.step P cfg ev).session := by
  obtain ⟨τ, hbegin, hends, htrail⟩ := step_spec P cfg w ev
  exact (hsettled.begins hσ hbegin hends).trail (htrail hclean)

/-! ## Runs -/

theorem Sound.run (hσ : Sound P L w.session) (evs : List Event) :
    Sound P (L ++ w.issued P cfg evs) (w.run P cfg evs).session := by
  induction evs generalizing w L with
  | nil => simpa [World.issued] using hσ
  | cons ev evs ih =>
      rw [World.run_cons, World.issued, ← List.append_assoc]
      exact ih (hσ.step ev)

theorem Settled.run (hsettled : Settled w.session) (hσ : Sound P L w.session) (hclean : ∀ ev ∈ evs, ev.Clean) :
    Settled (w.run P cfg evs).session := by
  induction evs generalizing w L with
  | nil => exact hsettled
  | cons ev evs ih =>
      rw [World.run_cons]
      exact ih (hsettled.step hσ (hclean ev (by simp))) (hσ.step ev) fun ev hev => hclean ev (by simp [hev])

/-! ## Issued ids -/

/-- A step issues ids from `next_id` on, and `next_id` does not fall. -/
theorem issuedBy_ge (P : Platform) (cfg : Settings) (w : World) (ev : Event) :
    (∀ p ∈ w.issuedBy P cfg ev, w.session.state.nextId.toNat ≤ p.1.n.toNat) ∧
      w.session.state.nextId.toNat ≤ (w.step P cfg ev).session.state.nextId.toNat := by
  obtain ⟨τ, hbegin, hends, -⟩ := step_spec P cfg w ev
  rw [nextId_ends hends]
  rcases issuedBy_of_begins hbegin hends with ⟨scope, items, now, -, hadm, rfl, hissued⟩ | ⟨hsame, hissued⟩
  · rw [hissued, Session.nextId_added hadm.room]
    exact ⟨fun p hp => (Session.mem_batch_ids hadm.room hp).1, Nat.le_add_right ..⟩
  · rw [hissued, hsame.nextId]
    exact ⟨fun p hp => (List.not_mem_nil hp).elim, le_rfl⟩

theorem issued_ge (P : Platform) (cfg : Settings) (w : World) (evs : List Event) :
    ∀ p ∈ w.issued P cfg evs, w.session.state.nextId.toNat ≤ p.1.n.toNat := by
  induction evs generalizing w with
  | nil => exact fun p hp => (List.not_mem_nil hp).elim
  | cons ev evs ih =>
      intro p hp
      rcases List.mem_append.mp hp with hp | hp
      · exact (issuedBy_ge P cfg w ev).1 p hp
      · exact (issuedBy_ge P cfg w ev).2.trans (ih _ p hp)

/-- The ids a step issues are below the `next_id` it leaves. -/
theorem issuedBy_lt (P : Platform) (cfg : Settings) (w : World) (ev : Event) :
    ∀ p ∈ w.issuedBy P cfg ev, p.1.n.toNat < (w.step P cfg ev).session.state.nextId.toNat := by
  obtain ⟨τ, hbegin, hends, -⟩ := step_spec P cfg w ev
  rw [nextId_ends hends]
  rcases issuedBy_of_begins hbegin hends with ⟨scope, items, now, -, hadm, rfl, hissued⟩ | ⟨-, hissued⟩
  · rw [hissued, Session.nextId_added hadm.room]
    exact fun p hp => (Session.mem_batch_ids hadm.room hp).2
  · rw [hissued]
    exact fun p hp => (List.not_mem_nil hp).elim

theorem nextId_le_run (P : Platform) (cfg : Settings) (w : World) (evs : List Event) :
    w.session.state.nextId.toNat ≤ (w.run P cfg evs).session.state.nextId.toNat := by
  induction evs generalizing w with
  | nil => exact le_rfl
  | cons ev evs ih => exact (issuedBy_ge P cfg w ev).2.trans (ih _)

theorem issued_lt (P : Platform) (cfg : Settings) (w : World) (evs : List Event) :
    ∀ p ∈ w.issued P cfg evs, p.1.n.toNat < (w.run P cfg evs).session.state.nextId.toNat := by
  induction evs generalizing w with
  | nil => exact fun p hp => (List.not_mem_nil hp).elim
  | cons ev evs ih =>
      intro p hp
      rcases List.mem_append.mp hp with hp | hp
      · exact (issuedBy_lt P cfg w ev p hp).trans_le (nextId_le_run P cfg _ evs)
      · exact ih _ p hp

theorem issued_append (P : Platform) (cfg : Settings) (w : World) (evs evs' : List Event) :
    w.issued P cfg (evs ++ evs') = w.issued P cfg evs ++ (w.run P cfg evs).issued P cfg evs' := by
  induction evs generalizing w with
  | nil => rfl
  | cons ev evs ih => simp [World.issued, ih]

/-! ## Fresh Sessions -/

theorem sound_start : Sound P [] World.start.session where
  distinct h := (List.not_mem_nil h).elim
  fresh h := (List.not_mem_nil h).elim
  triples h := (List.not_mem_nil h).elim
  known h := by simp [State.place, World.start, State.empty] at h
  home h := by simp [State.place, World.start, State.empty] at h
  whole h := (List.not_mem_nil h).elim
  owned hq := by simp [World.start] at hq

theorem settled_start : Settled World.start.session := by
  intro s id q hq
  simp [World.start] at hq

/-- The invariant of every run from empty stores, whatever transactions fail. -/
theorem sound_run (P : Platform) (cfg : Settings) (evs : List Event) :
    Sound P (World.start.issued P cfg evs) (World.start.run P cfg evs).session := by
  rw [← List.nil_append (World.start.issued P cfg evs)]
  exact sound_start.run evs

theorem settled_run (P : Platform) (cfg : Settings) (hclean : ∀ ev ∈ evs, ev.Clean) :
    Settled (World.start.run P cfg evs).session :=
  settled_start.run sound_start hclean

end Semanticore.Context
