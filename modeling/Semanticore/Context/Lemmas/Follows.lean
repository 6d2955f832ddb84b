import Semanticore.Context.Lemmas.Generic
import Semanticore.Lib.Choice

/-!
# The model follows the Session over a backend

The model leaves open how each transaction ends. Over a backend this is settled by the calls of the transaction: it
fails if one of them does. Operation by operation, the model does what the Session does, for some way of its
transactions to end.
-/

namespace Semanticore.Context.Generic
open Semanticore.Core Semanticore.Lib

variable {B : Storage} {Fit : Quad → Prop} (K : B.PlainSet Fit) (P : Platform)

/-! ## Agreement -/

/-- The quads of the live items fit. -/
def FitItems (P : Platform) (Fit : Quad → Prop) (st : State) : Prop :=
  ∀ id e, st.items[id]? = some e → ∀ q ∈ encode P id e.item, Fit q

/-- A world of the model and a world of the Session over a backend: the same index and clock, and stores that stand for
the same sets. -/
structure Agrees (w : Context.World) (v : World B) : Prop where
  state : w.session.state = v.state
  elapsed : w.elapsed = v.elapsed
  now : w.now = v.now
  stores : ∀ scope, K.holds (v.stores.get scope) (w.session.stores.get scope).quads.toFinset
  fits : FitItems P Fit v.state

/-- The choices of the model are how its transactions end. `X` says that what an operation writes fits: then a
transaction fails only if a call fails for a reason of the backend's own. -/
def comparison (X : Prop) : Comparison Context.World (World B) Fate where
  put w fates := { w with fates }
  related := Agrees K P
  calm v := X ∧ v.Quiet
  good fate := fate = .commit

variable {X : Prop} {scope : ContextScope}

/-! ## The index and the clock -/

theorem follows_getState : (comparison K P X).Follows Context.getState getState (FitItems P Fit) :=
  Comparison.Follows.read fun _ _ _ h => ⟨h.state, h.fits⟩

theorem Agrees.modify {f : State → State} (hf : ∀ st, FitItems P Fit st → FitItems P Fit (f st)) {w : Context.World}
    {v : World B} (h : Agrees K P w v) :
    Agrees K P { w with session := w.session.mapState f } { v with state := f v.state } where
  state := congrArg f h.state
  elapsed := h.elapsed
  now := h.now
  stores := h.stores
  fits := hf v.state h.fits

theorem follows_modifyState {f : State → State} (hf : ∀ st, FitItems P Fit st → FitItems P Fit (f st)) :
    (comparison K P X).Follows (Context.modifyState f) (modifyState f) fun _ => True :=
  Comparison.Follows.update (fun _ _ => rfl) (fun _ _ h => h.modify K P hf) fun _ h => h

theorem Agrees.note (m : Mark) {w : Context.World} {v : World B} (h : Agrees K P w v) :
    Agrees K P { w with session := w.session.note m } v :=
  ⟨h.state, h.elapsed, h.now, h.stores, h.fits⟩

theorem follows_instantNow : (comparison K P X).Follows Context.instantNow instantNow fun _ => True := by
  rintro ⟨σ, fates, elapsed, now⟩ ⟨stores, st, faults, elapsed', now'⟩ ⟨hstate, rfl, rfl, hstores, hfits⟩
  cases elapsed with
  | nil =>
      exact ⟨[], ⟨σ, fates, [], now⟩, ⟨hstate, rfl, rfl, hstores, hfits⟩, fun h => ⟨h, by simp⟩, fun _ _ => trivial,
        fun _ => rfl⟩
  | cons d ds =>
      exact ⟨[], ⟨σ, fates, ds, now + d⟩, ⟨hstate, rfl, rfl, hstores, hfits⟩, fun h => ⟨h, by simp⟩,
        fun _ _ => trivial, fun _ => rfl⟩

theorem follows_checkedAdd (a : UInt64) (k : Nat) :
    (comparison K P X).Follows (Context.checkedAdd a k) (checkedAdd a k) fun _ => True := by
  unfold Context.checkedAdd checkedAdd
  split
  · exact .ret trivial
  · exact .exit

theorem follows_liftExcept {α : Type} (r : Except SessionError α) :
    (comparison K P X).Follows (Context.liftExcept r) (liftExcept r) fun a => r = .ok a := by
  cases r with
  | ok a => exact .ret rfl
  | error e => exact .exit

/-! ## Transactions -/

theorem follows_withWrite {f : Closure B} {g : Store → Store} {after : Finset Quad → Finset Quad} {Y G : Prop}
    (hf : Writes K scope f after Y G) (hg : ∀ st : Store, (g st).quads.toFinset = after st.quads.toFinset) (hX : X → Y) :
    (comparison K P X).Follows (Context.withWrite scope g) (withWrite scope f) fun _ => G := by
  intro w v h
  have hspec := withWrite_spec K hf (h.stores scope)
  rcases hy : ((withWrite scope f).run.run v : Except Halt Unit × World B) with ⟨e | ⟨⟨⟩⟩, v'⟩
  · obtain ⟨htouch, rfl, hholds, hloud⟩ := hspec.error hy
    refine ⟨[.fail], w, ⟨h.state.trans htouch.state.symm, h.elapsed.trans htouch.elapsed.symm,
      h.now.trans htouch.now.symm, fun scope' => ?_, ?_⟩, ?_, fun _ ha => (by cases ha), fun rest => rfl⟩
    · by_cases hs : scope' = scope
      · subst hs
        exact hholds
      · rw [htouch.others scope' hs]
        exact h.stores scope'
    · rw [FitItems, htouch.state]
      exact h.fits
    · rintro ⟨hx, hquiet⟩
      exact (hloud hquiet (hX hx)).elim
  · obtain ⟨htouch, hholds, hG⟩ := hspec.ok hy
    refine ⟨[.commit], { w with session := w.session.commit scope (g (w.session.stores.get scope)) },
      ⟨h.state.trans htouch.state.symm, h.elapsed.trans htouch.elapsed.symm, h.now.trans htouch.now.symm,
        fun scope' => ?_, ?_⟩, fun hcalm => ⟨⟨hcalm.1, htouch.quiet hcalm.2⟩, by simp [comparison]⟩, fun _ _ => hG,
      fun rest => rfl⟩
    · by_cases hs : scope' = scope
      · subst hs
        rw [Session.get_commit, if_pos rfl, hg]
        exact hholds
      · rw [Session.get_commit, if_neg (Ne.symm hs), htouch.others scope' hs]
        exact h.stores scope'
    · rw [FitItems, htouch.state]
      exact h.fits

theorem follows_insertAll (quads : List Quad) (hbuilt : ∀ q ∈ quads, ¬ Fit q → q.Built) (hX : X → ∀ q ∈ quads, Fit q) :
    (comparison K P X).Follows (Context.withWrite scope (·.insertAll quads)) (withWrite scope (insertAll scope quads))
      fun _ => ∀ q ∈ quads, Fit q := by
  refine follows_withWrite K P (writes_insertAll K quads hbuilt) (fun st => ?_) hX
  ext q
  rw [Finset.mem_union, List.mem_toFinset, List.mem_toFinset, List.mem_toFinset]
  exact Store.mem_insertAll.trans or_comm

theorem follows_delete (id : ItemId) :
    (comparison K P X).Follows (Context.delete P scope id) (delete scope id) fun _ => True := by
  refine follows_withWrite K P (writes_deleteQuads K id) (fun st => ?_) fun _ => trivial
  ext q
  rw [Finset.mem_filter, List.mem_toFinset, List.mem_toFinset]
  exact mem_deleteQuads

/-! ## Moving, dropping and evicting -/

variable {P} in
theorem FitItems.insert {st : State} (h : FitItems P Fit st) {id : ItemId} {e : Entry}
    (he : ∀ q ∈ encode P id e.item, Fit q) : FitItems P Fit { st with items := st.items.insert id e } := by
  intro id' e' he'
  rw [getElem?_insert] at he'
  split at he'
  · subst_vars
    cases he'
    exact he
  · exact h id' e' he'

variable {P} in
theorem FitItems.erase {st : State} (h : FitItems P Fit st) (id : ItemId) (stats : SessionStats) :
    FitItems P Fit { st with items := st.items.erase id, stats } := by
  intro id' e' he'
  rw [getElem?_erase] at he'
  split at he'
  · cases he'
  · exact h id' e' he'

theorem follows_moveItem (id : ItemId) (target : ContextScope) (arrival : Arrival) :
    (comparison K P X).Follows (Context.moveItem P id target arrival) (moveItem P id target arrival) fun _ => True := by
  unfold Context.moveItem moveItem
  refine (follows_getState K P).bind fun st hst => ?_
  cases he : st.items[id]? with
  | none => exact .exit
  | some entry =>
      have hfit := hst id entry he
      refine (follows_insertAll K P _ (fun q hq hn => (hn (hfit q hq)).elim) fun _ => hfit).bind fun _ _ => ?_
      refine (follows_delete K P id).seq (.after (fun _ _ => rfl) (fun _ _ h => h.note K P _) ?_)
      exact follows_modifyState K P fun st hst => hst.insert hfit

theorem follows_dropItem (id : ItemId) :
    (comparison K P X).Follows (Context.dropItem P id) (dropItem id) fun _ => True := by
  unfold Context.dropItem dropItem
  refine (follows_getState K P).bind fun st hst => ?_
  cases he : st.items[id]? with
  | none => exact .exit
  | some entry =>
      refine (follows_delete K P id).seq (.after (fun _ _ => rfl) (fun _ _ h => h.note K P _) ?_)
      exact follows_modifyState K P fun st hst => hst.erase id _

variable (cfg : Settings)

theorem follows_victims (count : Nat) :
    (comparison K P X).Follows (Context.victims cfg scope count) (victims cfg scope count) fun _ => True := by
  unfold Context.victims victims
  refine (follows_instantNow K P).bind fun now _ => (follows_getState K P).bind fun st _ => ?_
  exact .before (fun _ _ => rfl) (fun _ _ h => h.note K P _) (.ret trivial)

theorem follows_evictVictim (id : ItemId) :
    (comparison K P X).Follows (Context.evictVictim P cfg scope id) (evictVictim P cfg scope id) fun _ => True := by
  unfold Context.evictVictim evictVictim
  refine (follows_getState K P).bind fun st _ => ?_
  cases st.items[id]? with
  | none => exact .exit
  | some entry =>
      dsimp only
      cases evictionTarget cfg scope entry.arrival with
      | none => exact follows_dropItem K P id
      | some colder => exact (follows_moveItem K P id colder .demoted).seq (follows_modifyState K P fun _ h => h)

theorem follows_enforceBounds :
    (comparison K P X).Follows (Context.enforceBounds P cfg scope) (enforceBounds P cfg scope) fun _ => True := by
  refine .forM fun s _ => ?_
  unfold Context.enforceTier enforceTier
  cases cfg.bounds.get s with
  | none => exact .ret trivial
  | some bound =>
      refine (follows_getState K P).bind fun st _ => ?_
      show (comparison K P X).Follows (if bound < st.itemCount s then _ else _) (if bound < st.itemCount s then _ else _) _
      split
      · refine (follows_victims K P cfg _).bind fun chosen _ => ?_
        exact .forM fun id _ => follows_evictVictim K P cfg id
      · exact .ret trivial

/-! ## Items -/

/-- The triples of an item come from the constructors. -/
def BuiltItem (item : ContextItem) : Prop := ∀ q ∈ item.payload.quads, q.Built

variable {P} in
theorem built_of_mem_encode {id : ItemId} {item : ContextItem} (h : BuiltItem item) {q : Quad}
    (hq : q ∈ encode P id item) : q.Built := by
  rcases mem_encode.mp hq with ⟨t, ht, rfl⟩ | rfl
  · exact h t ht
  · rintro l ⟨⟩
    exact .simple _

/-- What an item is stored as fits, under any id. -/
def FitItem (P : Platform) (Fit : Quad → Prop) (item : ContextItem) : Prop := ∀ id, ∀ q ∈ encode P id item, Fit q

variable {P} in
theorem FitItems.addBatch {st : State} (h : FitItems P Fit st) (batch : List (ItemId × ContextItem))
    (hbatch : ∀ q ∈ encodeBatch P batch, Fit q) (nextId : UInt64) (now : Instant) :
    FitItems P Fit (st.addBatch scope batch nextId now) := by
  have hfold : ∀ (l : List (ItemId × ContextItem)) (items : Index), (∀ p ∈ l, ∀ q ∈ encode P p.1 p.2, Fit q) →
      (∀ id e, items[id]? = some e → ∀ q ∈ encode P id e.item, Fit q) →
      ∀ id e, (l.foldl (fun items p => items.insert p.1 (Entry.new p.2 scope .added now)) items)[id]? = some e →
        ∀ q ∈ encode P id e.item, Fit q := by
    intro l
    induction l with
    | nil => exact fun _ _ hitems => hitems
    | cons p l ih =>
        intro items hl hitems
        refine ih _ (fun p' hp' => hl p' (List.mem_cons_of_mem _ hp')) fun id e he => ?_
        rw [getElem?_insert] at he
        split at he
        · subst_vars
          cases he
          exact hl p List.mem_cons_self
        · exact hitems id e he
  exact hfold batch st.items (fun p hp q hq => hbatch q (mem_encodeBatch.mpr ⟨p, hp, hq⟩)) h

theorem follows_addBatch (items : List ContextItem) (hbuilt : ∀ item ∈ items, BuiltItem item)
    (hX : X → ∀ item ∈ items, FitItem P Fit item) :
    (comparison K P X).Follows (Context.addBatch P cfg scope items) (addBatch P cfg scope items) fun _ => True := by
  have hmem : ∀ {first p}, p ∈ (idRange first items.length).zip items → p.2 ∈ items := fun hp => (List.of_mem_zip hp).2
  unfold Context.addBatch addBatch
  refine (follows_getState K P).bind fun st _ => ?_
  refine Comparison.Follows.seq (.forM fun item _ => (follows_liftExcept K P _).mono fun _ _ => trivial) ?_
  refine (follows_checkedAdd K P _ _).bind fun nextId _ => ?_
  refine (follows_insertAll K P _ (fun q hq _ => ?_) fun hx q hq => ?_).bind fun _ hfit => ?_
  · obtain ⟨p, hp, hq⟩ := mem_encodeBatch.mp hq
    exact built_of_mem_encode (hbuilt p.2 (hmem hp)) hq
  · obtain ⟨p, hp, hq⟩ := mem_encodeBatch.mp hq
    exact hX hx p.2 (hmem hp) p.1 q hq
  · refine (follows_instantNow K P).bind fun now _ => ?_
    refine (follows_modifyState K P fun st hst => hst.addBatch _ hfit nextId now).seq ?_
    exact (follows_enforceBounds K P cfg).seq (.ret trivial)

theorem follows_add (item : ContextItem) (hbuilt : BuiltItem item) (hX : X → FitItem P Fit item) :
    (comparison K P X).Follows (Context.add P cfg scope item) (add P cfg scope item) fun _ => True := by
  unfold Context.add add
  refine (follows_addBatch K P cfg [item] (by simpa using hbuilt) (by simpa using hX)).bind fun ids _ => ?_
  cases ids with
  | nil => exact .exit
  | cons id ids => exact .ret trivial

theorem follows_remove (id : ItemId) :
    (comparison K P X).Follows (Context.remove P scope id) (remove scope id) fun _ => True := by
  unfold Context.remove remove
  refine (follows_getState K P).bind fun st _ => ?_
  show (comparison K P X).Follows (if st.scopeOf id ≠ some scope then _ else _) (if st.scopeOf id ≠ some scope then _ else _) _
  split
  · exact .ret trivial
  · refine (follows_delete K P id).seq ?_
    exact (follows_modifyState K P fun st hst => hst.erase id st.stats).seq (.ret trivial)

theorem follows_promote (ids : List ItemId) (source target : ContextScope) :
    (comparison K P X).Follows (Context.promote P cfg ids source target) (promote P cfg ids source target)
      fun _ => True := by
  unfold Context.promote promote
  by_cases hlt : target < source
  · simp only [if_pos hlt]
    exact .exit_bind
  · simp only [if_neg hlt]
    refine (follows_getState K P).bind fun st _ => (follows_liftExcept K P _).bind fun items _ => ?_
    split
    · exact .ret trivial
    · refine .seq (.forM fun id _ => follows_moveItem K P id target .promoted) ?_
      refine .seq (follows_modifyState K P fun _ h => h) ?_
      exact (follows_enforceBounds K P cfg).seq (.ret trivial)

theorem follows_evict (criteria : EvictionCriteria) :
    (comparison K P X).Follows (Context.evict P cfg scope criteria) (evict P cfg scope criteria) fun _ => True := by
  cases criteria with
  | items ids =>
      unfold Context.evict evict
      refine (follows_getState K P).bind fun st _ => (follows_liftExcept K P _).bind fun items _ => ?_
      exact .seq (.forM fun id _ => follows_dropItem K P id) (.ret trivial)
  | demote ids target =>
      unfold Context.evict evict
      by_cases hle : scope ≤ target
      · simp only [if_pos hle]
        exact .exit_bind
      · simp only [if_neg hle]
        refine (follows_getState K P).bind fun st _ => (follows_liftExcept K P _).bind fun items _ => ?_
        refine .seq (.forM fun id _ => follows_moveItem K P id target .demoted) ?_
        refine .seq (follows_modifyState K P fun _ h => h) ?_
        exact (follows_enforceBounds K P cfg).seq (.ret trivial)
  | policy count =>
      unfold Context.evict evict
      refine (follows_victims K P cfg count).bind fun chosen _ => ?_
      refine .seq (.forM fun id _ => follows_evictVictim K P cfg id) ?_
      cases scope.colder with
      | none => exact .ret trivial
      | some colder => exact (follows_enforceBounds K P cfg).seq (.ret trivial)

/-! ## Queries -/

theorem follows_autoPromote (now : Instant) :
    (comparison K P X).Follows (Context.autoPromote P cfg now) (autoPromote P cfg now) fun _ => True := by
  unfold Context.autoPromote autoPromote
  refine (follows_getState K P).bind fun st _ => ?_
  refine .seq (.forM fun id _ => follows_moveItem K P id .enduring .promoted) ?_
  refine .seq (.forM fun id _ => follows_moveItem K P id .major .promoted) ?_
  refine .seq (follows_modifyState K P fun _ h => h) ?_
  by_cases hEnduring : promotable cfg st now .enduring = []
  · by_cases hMajor : promotable cfg st now .major = []
    · simp only [hEnduring, hMajor]
      exact .ret trivial
    · simp only [hEnduring, ne_eq, hMajor, not_true_eq_false, not_false_eq_true, if_true, if_false]
      exact (follows_enforceBounds K P cfg).seq (.ret trivial)
  · simp only [ne_eq, hEnduring, not_false_eq_true, if_true]
    exact (follows_enforceBounds K P cfg).seq (.ret trivial)

/-- The order in which a scope's quads are read makes no difference. -/
theorem matchedItems_perm {st : State} {quads quads' : List Quad} (h : quads.Perm quads') :
    (matchedItems st scope quads).1 = (matchedItems st scope quads').1 ∧
      (matchedItems st scope quads).2.toList = (matchedItems st scope quads').2.toList := by
  have hperm := h.filterMap (ownerIn st scope)
  constructor
  · rw [(matchedItems_spec quads).1, (matchedItems_spec quads').1, hperm.length_eq]
  · refine Std.TreeSet.equiv_iff_toList_eq.mp (.of_forall_mem_iff fun id => ?_)
    exact ((matchedItems_spec quads).2 id).trans (hperm.mem_iff.trans ((matchedItems_spec quads').2 id).symm)

theorem follows_consult (pattern : QuadPattern) (ho : BuiltObject pattern.object) :
    (comparison K P X).Follows (Context.consult P pattern scope) (consult pattern scope) fun _ => True := by
  intro w v h
  have hspec := consult_spec K (h.stores scope) ho
  have hagrees : ∀ {v'}, Touches scope v v' → v'.stores.get scope = v.stores.get scope → Agrees K P w v' := by
    intro v' htouch hstore
    refine ⟨h.state.trans htouch.state.symm, h.elapsed.trans htouch.elapsed.symm, h.now.trans htouch.now.symm,
      fun scope' => ?_, by rw [htouch.state]; exact h.fits⟩
    by_cases hs : scope' = scope
    · subst hs
      rw [hstore]
      exact h.stores scope'
    · rw [htouch.others scope' hs]
      exact h.stores scope'
  rcases hy : ((consult pattern scope).run.run v : Except Halt _ × World B) with ⟨e | r, v'⟩
  · obtain ⟨htouch, rfl, hstore, hloud⟩ := hspec.error hy
    exact ⟨[.fail], w, hagrees htouch hstore, fun hcalm => (hloud hcalm.2).elim, fun _ ha => (by cases ha), fun _ => rfl⟩
  · obtain ⟨htouch, hstore, quads, hnodup, hmem, rfl⟩ := hspec.ok hy
    refine ⟨[.commit], w, hagrees htouch hstore, fun hcalm => ⟨⟨hcalm.1, htouch.quiet hcalm.2⟩, by simp [comparison]⟩,
      fun _ _ => trivial, fun rest => ?_⟩
    have hperm : (w.session.matching P pattern scope).Perm quads := by
      refine (List.perm_ext_iff_of_nodup ?_ hnodup).mpr fun q => ?_
      · exact (P.scan_perm _).nodup_iff.mpr ((w.session.stores.get scope).nodup.filter _)
      · rw [hmem, List.mem_toFinset]
        exact Platform.mem_quadsForPattern
    have hstate := h.state
    rw [← (matchedItems_perm hperm).1, ← (matchedItems_perm hperm).2, ← hstate]
    rfl

theorem follows_access (now : Instant) (hit : ItemId × ContextScope) :
    (comparison K P X).Follows (Context.access cfg now hit) (access cfg now hit) fun _ => True := by
  unfold Context.access access
  refine (follows_getState K P).bind fun st hst => ?_
  cases he : st.items[hit.1]? with
  | none => exact .exit
  | some e =>
      refine .seq (follows_modifyState K P fun st' hst' => hst'.insert ?_) (.ret trivial)
      rw [Entry.touch_item]
      exact hst hit.1 e he

theorem follows_answer (q : ContextQuery) (ho : ∀ p, queryPattern q = .ok p → BuiltObject p.object) :
    (comparison K P X).Follows (Context.answer P cfg q) (answer cfg q) fun _ => True := by
  unfold Context.answer answer
  refine (follows_liftExcept K P _).bind fun pattern hpattern => ?_
  refine (Comparison.Follows.mapM fun s _ => follows_consult K P pattern (ho pattern hpattern)).bind fun consulted _ => ?_
  refine (follows_instantNow K P).bind fun now _ => ?_
  refine (Comparison.Follows.mapM fun hit _ => follows_access K P cfg now hit).bind fun items _ => ?_
  exact .seq (follows_modifyState K P fun _ h => h) (.ret trivial)

theorem follows_query (q : ContextQuery) (ho : ∀ p, queryPattern q = .ok p → BuiltObject p.object) :
    (comparison K P X).Follows (Context.query P cfg q) (query P cfg q) fun _ => True := by
  unfold Context.query query
  refine (follows_answer K P cfg q ho).bind fun a _ => ?_
  obtain ⟨now, quadsMatched, items⟩ := a
  cases cfg.promotion.cadence with
  | afterEachQuery => exact (follows_autoPromote K P cfg now).bind fun _ _ => .ret trivial
  | never => exact .bind (Q := fun _ => True) (.ret trivial) fun _ _ => .ret trivial

end Semanticore.Context.Generic
