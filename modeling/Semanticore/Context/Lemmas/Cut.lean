import Semanticore.Context.Lemmas.Runs
import Semanticore.Context.Lifecycle

/-!
# Cutting an operation short

The commits in the log of an operation, replayed up to a point, give the stores as a crash at that point leaves
them. Every action issues at most two commits, so such stores lie at the end of a trail or halfway through a move.
-/

namespace Semanticore.Context
open Semanticore.Core

variable {P : Platform} {cfg : Settings} {L : List (ItemId × ContextItem)} {σ τ υ ρ : Session} {w : World} {ev : Event}
  {id : ItemId} {item : ContextItem} {s : ContextScope}

@[simp] theorem commits_append (marks marks' : List Mark) : commits (marks ++ marks') = commits marks ++ commits marks' :=
  List.filterMap_append

theorem replay_append (stores : Tiers Store) (cs cs' : List (ContextScope × Store)) :
    replay stores (cs ++ cs') = replay (replay stores cs) cs' := List.foldl_append

/-! ## Commits on the way

`C` holds of the Sessions at which a crash may strike. -/

/-- The marks written on the way from `σ` to `τ`, and what the stores are after some of their commits. -/
structure Commits (C : Session → Prop) (σ τ : Session) (marks : List Mark) : Prop where
  log : τ.log = σ.log ++ marks
  stores : τ.stores = replay σ.stores (commits marks)
  cut : ∀ k < (commits marks).length, ∃ ρ, C ρ ∧ ρ.stores = replay σ.stores ((commits marks).take k)

namespace Commits

variable {C : Session → Prop} {marks marks' : List Mark}

theorem refl : Commits C σ σ [] := ⟨by simp, rfl, fun k hk => absurd hk (Nat.not_lt_zero k)⟩

theorem commit (hC : C σ) (scope : ContextScope) (after : Store) :
    Commits C σ (σ.commit scope after) [.commit scope after] := by
  refine ⟨rfl, rfl, fun k hk => ⟨σ, hC, ?_⟩⟩
  rw [Nat.lt_one_iff.mp hk]
  rfl

theorem note {m : Mark} (hm : Context.commits [m] = []) : Commits C σ (σ.note m) [m] :=
  ⟨rfl, by rw [hm]; rfl, fun k hk => by rw [hm] at hk; exact absurd hk (Nat.not_lt_zero k)⟩

theorem mapState (f : State → State) : Commits C σ (σ.mapState f) [] :=
  ⟨by simp [Session.mapState], rfl, fun k hk => absurd hk (Nat.not_lt_zero k)⟩

theorem trans (h : Commits C σ υ marks) (h' : Commits C υ τ marks') : Commits C σ τ (marks ++ marks') := by
  refine ⟨by rw [h'.log, h.log, List.append_assoc], ?_, fun k hk => ?_⟩
  · rw [h'.stores, h.stores, commits_append, replay_append]
  · rw [commits_append] at hk ⊢
    rcases Nat.lt_or_ge k (Context.commits marks).length with hlt | hge
    · rw [List.take_append_of_le_length hlt.le]
      exact h.cut k hlt
    · rw [List.length_append] at hk
      obtain ⟨ρ, hC, hstores⟩ := h'.cut (k - (Context.commits marks).length) (by omega)
      refine ⟨ρ, hC, ?_⟩
      rw [hstores, h.stores, ← replay_append, List.take_append, List.take_of_length_le hge]

theorem mono {C' : Session → Prop} (h : Commits C σ τ marks) (hC : ∀ ρ, C ρ → C' ρ) : Commits C' σ τ marks :=
  ⟨h.log, h.stores, fun k hk => (h.cut k hk).imp fun ρ hρ => ⟨hC ρ hρ.1, hρ.2⟩⟩

theorem upTo (h : Commits C σ τ marks) (hC : C τ) (k : Nat) :
    ∃ ρ, C ρ ∧ ρ.stores = replay σ.stores ((Context.commits marks).take k) := by
  rcases Nat.lt_or_ge k (Context.commits marks).length with hlt | hge
  · exact h.cut k hlt
  · exact ⟨τ, hC, by rw [List.take_of_length_le hge, h.stores]⟩

end Commits

/-! ## Cuts of trails -/

/-- `ρ` is met on the way from `σ` to `τ`: between two actions or halfway through a move. -/
inductive Cut (P : Platform) (cfg : Settings) (σ τ : Session) : Session → Prop
  | between {ρ : Session} (hbefore : Trail P cfg σ ρ) (hafter : Trail P cfg ρ τ) : Cut P cfg σ τ ρ
  | halfway {υ : Session} {id : ItemId} {e : Entry} {target : ContextScope} (arrival : Arrival)
      (hbefore : Trail P cfg σ υ) (he : υ.state.items[id]? = some e) (hne : target ≠ e.scope)
      (hafter : Trail P cfg (υ.moved P id e target arrival) τ) : Cut P cfg σ τ (υ.copied P id e.item target)

theorem Cut.ends (h : Cut P cfg σ τ ρ) : Ends P cfg σ ρ := by
  cases h with
  | between hbefore hafter => exact hbefore.ends
  | halfway arrival hbefore he hne hafter => exact ⟨_, hbefore, Or.inr ⟨_, _, _, he, hne, rfl⟩⟩

/-- The commits of one action of a trail. -/
theorem Act.commits (h : Act P cfg υ ρ) (hbefore : Trail P cfg σ υ) (hafter : Trail P cfg ρ τ) :
    ∃ marks, Commits (Cut P cfg σ τ) υ ρ marks := by
  have hstart : Cut P cfg σ τ υ := .between hbefore (h.trail.trans hafter)
  cases h with
  | @moved id e target arrival he hne =>
      have hhalf : Cut P cfg σ τ (υ.copied P id e.item target) := .halfway arrival hbefore he hne hafter
      exact ⟨_, (((Commits.commit hstart ..).trans (.commit hhalf ..)).trans (.mapState _)).trans (.note rfl)⟩
  | dropped he => exact ⟨_, ((Commits.commit hstart ..).trans (.mapState _)).trans (.note rfl)⟩
  | removed he => exact ⟨_, (Commits.commit hstart ..).trans (.mapState _)⟩
  | counted promoted demoted => exact ⟨_, .mapState _⟩
  | selected now scope count => exact ⟨_, .note rfl⟩

theorem Trail.commits (hbefore : Trail P cfg σ υ) (h : Trail P cfg υ τ) :
    ∃ marks, Commits (Cut P cfg σ τ) υ τ marks := by
  induction h using Relation.ReflTransGen.head_induction_on with
  | refl => exact ⟨[], .refl⟩
  | head hact hafter ih =>
      obtain ⟨marks, hmarks⟩ := hact.commits hbefore hafter
      obtain ⟨marks', hmarks'⟩ := ih (hbefore.trans hact.trail)
      exact ⟨_, hmarks.trans hmarks'⟩

/-- The commits of an operation that a failing transaction may have interrupted. -/
theorem Ends.commits (h : Ends P cfg σ τ) : ∃ marks, Commits (Ends P cfg σ) σ τ marks := by
  obtain ⟨υ, htrail, hlast⟩ := h
  obtain ⟨marks, hmarks⟩ := Trail.refl.commits htrail
  have htrail' : Commits (Ends P cfg σ) σ υ marks := hmarks.mono fun _ => Cut.ends
  rcases hlast with rfl | ⟨id, e, target, he, hne, rfl⟩
  · exact ⟨marks, htrail'⟩
  · exact ⟨_, htrail'.trans (.commit htrail.ends ..)⟩

theorem log_access (σ : Session) (now : Instant) (id : ItemId) : (σ.access cfg now id).log = σ.log := by
  unfold Session.access
  split <;> rfl

theorem log_answered (σ : Session) (now : Instant) (ids : List ItemId) : (σ.answered cfg now ids).log = σ.log := by
  show (ids.foldl (Session.access cfg now) σ).log = σ.log
  induction ids generalizing σ with
  | nil => rfl
  | cons id ids ih => exact (ih _).trans (log_access σ now id)

/-- The first stage of an operation commits at most once. -/
theorem Begins.commits {t t' : Instant} {op : Op} (h : Begins P cfg t t' op σ τ) :
    ∃ marks, Commits (· = σ) σ τ marks := by
  cases h with
  | nothing => exact ⟨[], .refl⟩
  | added now hop hadm hle hle' => exact ⟨_, (Commits.commit (C := (· = σ)) rfl ..).trans (.mapState _)⟩
  | answered now ids hle hle' =>
      refine ⟨[], by rw [log_answered, List.append_nil], ?_, fun k hk => absurd hk (Nat.not_lt_zero k)⟩
      exact (samePlaces_answered cfg σ now ids).stores

/-- What a crash leaves in the stores: what was there before the operation, or what is met after its first stage. -/
theorem crash_stores {C : Session → Prop} {marks : List Mark} {t t' : Instant}
    (hbegin : Begins P cfg t t' ev.op (w.prepare ev).session τ)
    (hrest : Commits C τ (w.step P cfg ev).session marks) (hC : C (w.step P cfg ev).session) (k : Nat) :
    ∃ ρ, (ρ = (w.prepare ev).session ∨ C ρ) ∧ (w.crash P cfg ev k).session.stores = ρ.stores := by
  obtain ⟨marks₀, hfirst⟩ := hbegin.commits
  have hall := (hfirst.mono fun _ => Or.inl).trans (hrest.mono fun _ => Or.inr)
  obtain ⟨ρ, hρ, hstores⟩ := hall.upTo (Or.inr hC) k
  refine ⟨ρ, hρ, ?_⟩
  have hlog : (w.step P cfg ev).session.log = marks₀ ++ marks := by rw [hall.log]; rfl
  rw [hstores, World.crash]
  simp only [hlog]
  rfl

/-! ## Items on the way -/

theorem Trail.mem_log (h : Trail P cfg σ τ) {m : Mark} (hm : m ∈ σ.log) : m ∈ τ.log := by
  obtain ⟨marks, hmarks⟩ := Trail.refl.commits h
  rw [hmarks.log]
  exact List.mem_append_left _ hm

/-- The log says that `id` was moved to `s`. -/
def MovedTo (σ : Session) (id : ItemId) (s : ContextScope) : Prop := ∃ source, Mark.moved id source s ∈ σ.log

theorem Trail.movedTo (h : Trail P cfg σ τ) (hm : MovedTo σ id s) : MovedTo τ id s := by
  obtain ⟨source, hm⟩ := hm
  exact ⟨source, h.mem_log hm⟩

/-- A trail adds no item, and logs every move. -/
theorem Act.origin (h : Act P cfg σ τ) (hplace : τ.state.place id = some (item, s)) :
    ∃ s₀, σ.state.place id = some (item, s₀) ∧ (s = s₀ ∨ MovedTo τ id s) := by
  cases h with
  | @moved id' e target arrival he hne =>
      rw [Session.place_moved] at hplace
      split at hplace
      · rename_i hid
        subst hid
        cases hplace
        exact ⟨e.scope, State.place_of_live he, Or.inr ⟨e.scope, by simp [Session.moved, Session.note]⟩⟩
      · exact ⟨s, hplace, Or.inl rfl⟩
  | @dropped id' e he =>
      rw [Session.place_dropped] at hplace
      split at hplace
      · cases hplace
      · exact ⟨s, hplace, Or.inl rfl⟩
  | @removed id' e he =>
      rw [Session.place_removed] at hplace
      split at hplace
      · cases hplace
      · exact ⟨s, hplace, Or.inl rfl⟩
  | counted promoted demoted => exact ⟨s, hplace, Or.inl rfl⟩
  | selected now scope count => exact ⟨s, hplace, Or.inl rfl⟩

theorem Trail.origin (h : Trail P cfg σ τ) (hplace : τ.state.place id = some (item, s)) :
    ∃ s₀, σ.state.place id = some (item, s₀) ∧ (s = s₀ ∨ MovedTo τ id s) := by
  induction h generalizing s with
  | refl => exact ⟨s, hplace, Or.inl rfl⟩
  | tail htrail hact ih =>
      obtain ⟨s₁, hplace₁, hs⟩ := hact.origin hplace
      rcases hs with rfl | hmoved
      · obtain ⟨s₀, hplace₀, hs⟩ := ih hplace₁
        exact ⟨s₀, hplace₀, hs.imp_right hact.trail.movedTo⟩
      · obtain ⟨s₀, hplace₀, -⟩ := ih hplace₁
        exact ⟨s₀, hplace₀, Or.inr hmoved⟩

theorem Ends.origin (h : Ends P cfg σ τ) (hplace : τ.state.place id = some (item, s)) :
    ∃ s₀, σ.state.place id = some (item, s₀) := by
  obtain ⟨ρ, htrail, rfl | ⟨_, _, _, _, _, rfl⟩⟩ := h
  · exact (htrail.origin hplace).imp fun _ h => h.1
  · exact (htrail.origin hplace).imp fun _ h => h.1

/-- A live item was live before the call, or the call issued its id. -/
theorem origin_step (P : Platform) (cfg : Settings) (w : World) (ev : Event)
    (hplace : (w.step P cfg ev).session.state.place id = some (item, s)) :
    (id, item) ∈ w.issuedBy P cfg ev ∨ ∃ s₀, w.session.state.place id = some (item, s₀) := by
  obtain ⟨τ, hbegin, hends, -⟩ := step_spec P cfg w ev
  obtain ⟨s₁, hτ⟩ := hends.origin hplace
  rcases issuedBy_of_begins hbegin hends with ⟨scope, items, now, -, hadm, rfl, hissued⟩ | ⟨hsame, -⟩
  · rw [hissued]
    exact (Session.place_added_cases hadm.room hτ).imp_right fun h => ⟨s₁, h⟩
  · exact Or.inr ⟨s₁, hsame.place id ▸ hτ⟩

/-- A live item was live before the run, or the run issued its id. -/
theorem origin_run (P : Platform) (cfg : Settings) (w : World) (evs : List Event)
    (hplace : (w.run P cfg evs).session.state.place id = some (item, s)) :
    (id, item) ∈ w.issued P cfg evs ∨ ∃ s₀, w.session.state.place id = some (item, s₀) := by
  induction evs generalizing w with
  | nil => exact Or.inr ⟨s, hplace⟩
  | cons ev evs ih =>
      rcases ih _ hplace with hissued | ⟨s₁, hstep⟩
      · exact Or.inl (List.mem_append_right _ hissued)
      · exact (origin_step P cfg w ev hstep).imp_left fun h => List.mem_append_left _ h

/-- An item live at the end of a trail is live at every cut of it. -/
theorem Cut.place (h : Cut P cfg σ τ ρ) (hplace : τ.state.place id = some (item, s)) :
    ∃ s', ρ.state.place id = some (item, s') := by
  cases h with
  | between hbefore hafter =>
      obtain ⟨s', hs', -⟩ := hafter.origin hplace
      exact ⟨s', hs'⟩
  | halfway arrival hbefore he hne hafter =>
      obtain ⟨s', hs', -⟩ := ((Act.moved arrival he hne).trail.trans hafter).origin hplace
      exact ⟨s', hs'⟩

/-- A quad stored at a cut belongs to an item live at the start, which was there or on its way there. -/
theorem Cut.stored (h : Cut P cfg σ τ ρ) (hsettled : Settled σ) {q : Quad} (hq : q ∈ ρ.stores.get s)
    (ho : Owned id q) : ∃ item s₀, σ.state.place id = some (item, s₀) ∧ (s = s₀ ∨ MovedTo τ id s) := by
  cases h with
  | between hbefore hafter =>
      obtain ⟨item, hplace⟩ := hsettled.trail hbefore hq ho
      obtain ⟨s₀, hplace₀, hs⟩ := hbefore.origin hplace
      exact ⟨item, s₀, hplace₀, hs.imp_right hafter.movedTo⟩
  | @halfway υ id' e target arrival hbefore he hne hafter =>
      have hmove : Trail P cfg υ τ := (Act.moved arrival he hne).trail.trans hafter
      rcases Session.mem_copied.mp hq with hq | ⟨rfl, henc⟩
      · obtain ⟨item, hplace⟩ := hsettled.trail hbefore hq ho
        obtain ⟨s₀, hplace₀, hs⟩ := hbefore.origin hplace
        exact ⟨item, s₀, hplace₀, hs.imp_right hmove.movedTo⟩
      · obtain rfl := (owned_of_mem_encode henc).unique ho
        obtain ⟨s₀, hplace₀, -⟩ := hbefore.origin (State.place_of_live he)
        have hlogged : MovedTo (υ.moved P id' e s arrival) id' s :=
          ⟨e.scope, by simp [Session.moved, Session.note]⟩
        exact ⟨e.item, s₀, hplace₀, Or.inr (hafter.movedTo hlogged)⟩

end Semanticore.Context
