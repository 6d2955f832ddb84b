import Semanticore.Lib.Encoding
import Semanticore.Oxigraph.Adapter
import Semanticore.Oxigraph.Verbatim

/-!
# The adapter as a plain set of quads

A store written through the adapter stands for a set of core quads. Transactions on the store answer as that set
does, and refuse what cannot be stored.
-/

namespace Semanticore.Oxigraph
open Semanticore Semanticore.Core Semanticore.Lib

/-! ## Accepted quads as a code -/

/-- A quad is encoded as it is stored, if it is accepted. -/
def quadCode (B : Crates) : Code Quad (EncodedQuad B) where
  Valid := Quad.Built
  encode q := (quadToOx B q).toOption.map (·.encode B)
  injective := by
    intro q₁ q₂ k hbuilt₁ hbuilt₂ h₁ h₂
    cases hq₁ : quadToOx B q₁ with
    | error u => simp [hq₁, Except.toOption] at h₁
    | ok o₁ =>
        cases hq₂ : quadToOx B q₂ with
        | error u => simp [hq₂, Except.toOption] at h₂
        | ok o₂ =>
            simp only [hq₁, Except.toOption, Option.map_some, Option.some.injEq] at h₁
            simp only [hq₂, Except.toOption, Option.map_some, Option.some.injEq] at h₂
            exact eq_of_encode_eq hbuilt₁ hbuilt₂ hq₁ hq₂ (h₁.trans h₂.symm)

variable {B : Crates}

theorem quadCode_ok {q : Quad} {o : Ox.Quad} (h : quadToOx B q = .ok o) : (quadCode B).encode q = some (o.encode B) := by
  simp [quadCode, h, Except.toOption]

theorem quadCode_error {q : Quad} {u : Unrepresentable} (h : quadToOx B q = .error u) : (quadCode B).encode q = none := by
  simp [quadCode, h, Except.toOption]

theorem quadCode_some {q : Quad} {k : EncodedQuad B} (h : (quadCode B).encode q = some k) :
    ∃ o, quadToOx B q = .ok o ∧ o.encode B = k := by
  cases hq : quadToOx B q with
  | error u => cases (quadCode_error hq).symm.trans h
  | ok o => exact ⟨o, rfl, Option.some.inj ((quadCode_ok hq).symm.trans h)⟩

/-! ## Patterns -/

/-- A bound position of a pattern matches the stored terms as it matches the core terms. -/
theorem all_of_mapM {α β ε : Type} {f : α → Except ε β} {x : Option α} {y : Option β} (h : x.mapM f = .ok y)
    {p : α → Bool} {r : β → Bool} (hagree : ∀ a b, x = some a → f a = .ok b → r b = p a) : y.all r = x.all p := by
  cases x with
  | none =>
      cases h
      rfl
  | some a =>
      obtain ⟨b, hb, rfl⟩ := map_eq_ok.mp ((Option.mapM_some a f).symm.trans h)
      exact hagree a b rfl hb

theorem mapM_of_all {α β ε : Type} {f : α → Except ε β} {x : Option α} {p : α → Bool} (h : x.all p = true)
    (hok : ∀ a, p a = true → ∃ b, f a = .ok b) : ∃ y, x.mapM f = .ok y := by
  cases x with
  | none => exact ⟨none, Option.mapM_none f⟩
  | some a =>
      obtain ⟨b, hb⟩ := hok a h
      exact ⟨some b, map_eq_ok.mpr ⟨b, hb, rfl⟩⟩

theorem subject_eq_iff {s t : NamedOrBlankNode} {s' t' : Ox.NamedOrBlankNode} (hs : subjectToOx B s = .ok s')
    (ht : subjectToOx B t = .ok t') : s' = t' ↔ s = t := by
  constructor
  · rintro rfl
    rw [← subjectFromOx_toOx hs, subjectFromOx_toOx ht]
  · rintro rfl
    exact Except.ok.inj (hs.symm.trans ht)

theorem named_eq_iff {n m : NamedNode} {n' m' : Ox.NamedNode} (hn : namedToOx B n = .ok n')
    (hm : namedToOx B m = .ok m') : n' = m' ↔ n = m := by
  constructor
  · rintro rfl
    rw [← namedFromOx_toOx hn, namedFromOx_toOx hm]
  · rintro rfl
    exact Except.ok.inj (hn.symm.trans hm)

theorem graph_eq_iff {g k : NamedOrDefault} {g' k' : Ox.GraphName} (hg : graphToOx B g = .ok g')
    (hk : graphToOx B k = .ok k') : g' = k' ↔ g = k := by
  constructor
  · rintro rfl
    exact Except.ok.inj ((graphFromOx_toOx hg).symm.trans (graphFromOx_toOx hk))
  · rintro rfl
    exact Except.ok.inj (hg.symm.trans hk)

/-- Objects are compared as they are stored. -/
theorem object_eq_iff {t u : Term} {t' u' : Ox.Term} (hbuilt : ∀ l, t = .literal l → l.Built)
    (hbuilt' : ∀ l, u = .literal l → l.Built) (ht : termToOx B t = .ok t') (hu : termToOx B u = .ok u') :
    t'.encode B = u'.encode B ↔ t = u := by
  obtain ⟨hstable, hread⟩ := termFromOx_toOx hbuilt ht
  obtain ⟨hstable', hread'⟩ := termFromOx_toOx hbuilt' hu
  constructor
  · intro heq
    rw [heq, hstable'] at hstable
    subst hstable
    exact Except.ok.inj (hread.symm.trans hread')
  · rintro rfl
    rw [Except.ok.inj (ht.symm.trans hu)]

theorem matches_encode {q : Quad} {k : Ox.Quad} (hq : q.Built) (hk : quadToOx B q = .ok k) {s p o g s' p' o' g'}
    (hbuilt : ∀ l, o = some (.literal l) → l.Built) (hs : s.mapM (subjectToOx B) = .ok s')
    (hp : p.mapM (namedToOx B) = .ok p') (ho : o.mapM (termToOx B) = .ok o') (hg : g.mapM (graphToOx B) = .ok g') :
    (k.encode B).matches s' p' o' g' = matchesPattern q s p o g := by
  obtain ⟨hsubject, hpredicate, hobject, hgraph⟩ := quadToOx_ok.mp hk
  have hs' : s'.all (k.subject = ·) = s.all (q.subject = ·) :=
    all_of_mapM hs fun a b _ hb => decide_eq_decide.mpr (subject_eq_iff hsubject hb)
  have hp' : p'.all (k.predicate = ·) = p.all (q.predicate = ·) :=
    all_of_mapM hp fun a b _ hb => decide_eq_decide.mpr (named_eq_iff hpredicate hb)
  have ho' : o'.all (k.object.encode B = ·.encode B) = o.all (q.object = ·) :=
    all_of_mapM ho fun a b ha hb => decide_eq_decide.mpr
      (object_eq_iff hq (fun l hl => hbuilt l (hl ▸ ha)) hobject hb)
  have hg' : g'.all (k.graphName = ·) = g.all (q.graph = ·) :=
    all_of_mapM hg fun a b _ hb => decide_eq_decide.mpr (graph_eq_iff hgraph hb)
  exact congrArg₂ _ (congrArg₂ _ (congrArg₂ _ hs' hp') ho') hg'

/-- A pattern that matches an accepted quad has only terms that can be stored. -/
theorem pattern_of_matches {q : Quad} {k : Ox.Quad} (hk : quadToOx B q = .ok k) {s p o g}
    (h : matchesPattern q s p o g = true) : (∃ s', s.mapM (subjectToOx B) = .ok s') ∧
      (∃ p', p.mapM (namedToOx B) = .ok p') ∧ (∃ o', o.mapM (termToOx B) = .ok o') ∧
      ∃ g', g.mapM (graphToOx B) = .ok g' := by
  obtain ⟨hsubject, hpredicate, hobject, hgraph⟩ := quadToOx_ok.mp hk
  simp only [matchesPattern, Bool.and_eq_true] at h
  obtain ⟨⟨⟨hs, hp⟩, ho⟩, hg⟩ := h
  exact ⟨mapM_of_all hs fun a ha => ⟨_, of_decide_eq_true ha ▸ hsubject⟩,
    mapM_of_all hp fun a ha => ⟨_, of_decide_eq_true ha ▸ hpredicate⟩,
    mapM_of_all ho fun a ha => ⟨_, of_decide_eq_true ha ▸ hobject⟩,
    mapM_of_all hg fun a ha => ⟨_, of_decide_eq_true ha ▸ hgraph⟩⟩

/-! ## What is answered -/

/-- The iterator yields the quads of the set, each once. -/
def Lists (l : List (Except StorageError Quad)) (S : Finset Quad) : Prop :=
  ∃ qs : List Quad, l = qs.map .ok ∧ qs.Nodup ∧ qs.toFinset = S

/-- The reply of the adapter is the answer of a plain set. -/
def Accords : Reply → Answer → Prop
  | .flag r, .flag b => r = .ok b
  | .yields l, .quads S => Lists l S
  | _, _ => False

/-- The reply `r` to the call `c` on the set `S`, which becomes `S'`. -/
structure Response (B : Crates) (S : Finset Quad) (c : Call) (r : Reply) (S' : Finset Quad) : Prop where
  fit : ∀ q ∈ S', ¬ Unfit B q
  plain : (∀ q, c = .insert q → ¬ Unfit B q) → Accords r (plainCall S c).1 ∧ S' = (plainCall S c).2
  refused : ∀ q, c = .insert q → Unfit B q → (∃ e, r = .flag (.error e)) ∧ S' = S
  absent : ∀ q, Unfit B q → c = .contains q ∨ c = .remove q → r = .flag (.ok false)
  nothing : ∀ s p o g, c = .quadsForPattern s p o g → (∀ q, matchesPattern q s p o g = true → Unfit B q) →
    r = .yields []

/-- The replies to a list of calls. -/
inductive Conforms (B : Crates) : Finset Quad → List Call → List Reply → Finset Quad → Prop
  | nil {S : Finset Quad} : Conforms B S [] [] S
  | cons {S S₁ S₂ : Finset Quad} {c : Call} {r : Reply} {cs : List Call} {rs : List Reply} (h : Response B S c r S₁)
      (hs : Conforms B S₁ cs rs S₂) : Conforms B S (c :: cs) (r :: rs) S₂

/-! ## What reads find -/

variable {H : Backend} {st : OxigraphStore H} {tx : OxigraphTransaction H} {S : Finset Quad}

/-- A set that is stored has no quad that cannot be stored. -/
theorem fit_of_represents {K : Finset (EncodedQuad B)} (h : Represents (quadCode B) K S) : ∀ q ∈ S, ¬ Unfit B q := by
  intro q hq hunfit
  obtain ⟨u, hu⟩ := refused_iff.mpr hunfit
  exact h.not_mem (quadCode_error hu) hq

/-- What a scan streams reads back as the quads that it stands for. -/
theorem map_read {ks : List (EncodedQuad B)} {qs : List Quad}
    (h : List.Forall₂ (fun q k => (quadCode B).Valid q ∧ (quadCode B).encode q = some k) qs ks) :
    ks.map (fun k => quadFromOx k.decode) = qs.map .ok := by
  induction h with
  | nil => rfl
  | @cons q k qs ks hqk hrest ih =>
      obtain ⟨o, ho, rfl⟩ := quadCode_some hqk.2
      rw [List.map_cons, List.map_cons, ih, quadFromOx_toOx hqk.1 ho]

theorem quadsForPattern_lists (h : Represents (quadCode H.crates) (tx.view st) S) {s p o g}
    (hbuilt : ∀ l, o = some (.literal l) → l.Built) :
    Lists (tx.quadsForPattern st s p o g) (S.filter (matchesPattern · s p o g = true)) := by
  unfold OxigraphTransaction.quadsForPattern
  split
  · rename_i s' p' o' g' hs hp ho hg
    have hfilter : Represents (quadCode H.crates) ((tx.view st).filter (·.matches s' p' o' g' = true))
        (S.filter (matchesPattern · s p o g = true)) := by
      refine h.filter fun q hq k hk => ?_
      obtain ⟨o', ho', rfl⟩ := quadCode_some hk
      rw [matches_encode (h.valid q hq) ho' hbuilt hs hp ho hg]
    obtain ⟨qs, hnodup, hset, hall⟩ := hfilter.listing
      (fun k => by rw [H.mem_scan (tx.view st) s' p' o' g' k, Finset.mem_filter]) (H.nodup_scan (tx.view st) s' p' o' g')
    exact ⟨qs, map_read hall, hnodup, hset⟩
  · rename_i hfails
    refine ⟨[], rfl, .nil, (Finset.filter_eq_empty_iff.mpr fun q hq hmatch => ?_).symm⟩
    obtain ⟨k, -, hk⟩ := h.stored q hq
    obtain ⟨x, hx, -⟩ := quadCode_some hk
    obtain ⟨⟨s', hs⟩, ⟨p', hp⟩, ⟨o', ho⟩, ⟨g', hg⟩⟩ := pattern_of_matches hx hmatch
    exact hfails s' p' o' g' hs hp ho hg

theorem contains_accords (h : Represents (quadCode H.crates) (tx.view st) S) {q : Quad} (hq : q.Built) :
    tx.contains st q = .ok (q ∈ S : Bool) := by
  unfold OxigraphTransaction.contains
  cases hok : quadToOx H.crates q with
  | error u => simp [h.not_mem (quadCode_error hok)]
  | ok o => simp [OxigraphTransaction.containsOx, h.mem_iff hq (quadCode_ok hok)]

/-! ## The response to a call -/

theorem Response.of_plain {c : Call} {r : Reply} (hS : ∀ q ∈ S, ¬ Unfit B q) (hc : ∀ q, c = .insert q → ¬ Unfit B q)
    (h : Accords r (plainCall S c).1) : Response B S c r (plainCall S c).2 where
  fit := by
    cases c with
    | insert q =>
        intro q' hq'
        rcases Finset.mem_insert.mp hq' with rfl | hq'
        · exact hc q' rfl
        · exact hS q' hq'
    | remove q => exact fun q' hq' => hS q' (Finset.mem_of_mem_erase hq')
    | contains q => exact hS
    | quadsForPattern s p o g => exact hS
  plain := fun _ => ⟨h, rfl⟩
  refused q hq hunfit := absurd hunfit (hc q hq)
  absent := by
    rintro q hunfit (rfl | rfl)
    · have habsent : q ∉ S := fun hq => hS q hq hunfit
      cases r with
      | flag b => simpa [Accords, plainCall, habsent] using h
      | yields l => exact h.elim
    · have habsent : q ∉ S := fun hq => hS q hq hunfit
      cases r with
      | flag b => simpa [Accords, plainCall, habsent] using h
      | yields l => exact h.elim
  nothing := by
    rintro s p o g rfl hunfit
    cases r with
    | flag b => exact h.elim
    | yields l =>
        obtain ⟨qs, rfl, -, hset⟩ := h
        have hempty : S.filter (matchesPattern · s p o g = true) = ∅ :=
          Finset.filter_eq_empty_iff.mpr fun q hq hmatch => hS q hq (hunfit q hmatch)
        rw [hempty, List.toFinset_eq_empty_iff] at hset
        rw [hset, List.map_nil]

theorem Response.of_unfit {q : Quad} {e : StorageError} (hS : ∀ q ∈ S, ¬ Unfit B q) (hq : Unfit B q) :
    Response B S (.insert q) (.flag (.error e)) S where
  fit := hS
  plain hc := absurd hq (hc q rfl)
  refused _ _ _ := ⟨⟨e, rfl⟩, rfl⟩
  absent _ _ h := by rcases h with h | h <;> cases h
  nothing _ _ _ _ h := by cases h

/-- Calls that only read answer as the plain set does. -/
theorem call_reads (st : OxigraphStore H) (tx : OxigraphTransaction H)
    (h : Represents (quadCode H.crates) (tx.view st) S) {c : Call} (hc : c.Built) (hreads : c.reads = true) :
    Response H.crates S c (tx.call st c).1 S ∧ (tx.call st c).2 = tx := by
  have hS := fit_of_represents h
  cases c with
  | insert q => cases hreads
  | remove q => cases hreads
  | contains q =>
      refine ⟨.of_plain hS (fun _ h => by cases h) ?_, rfl⟩
      exact contains_accords h hc
  | quadsForPattern s p o g =>
      refine ⟨.of_plain hS (fun _ h => by cases h) ?_, rfl⟩
      exact quadsForPattern_lists h hc

/-- The writes of a transaction come from accepted quads, and stand for the plain set. -/
structure Keeps (W : Finset (EncodedQuad B)) (S : Finset Quad) : Prop where
  written : Written (quadCode B) W
  represents : Represents (quadCode B) W S

variable {W : Finset (EncodedQuad H.crates)}

theorem containsOx_write {o : Ox.Quad} :
    (OxigraphTransaction.write W).containsOx st o = decide (o.encode H.crates ∈ W) := rfl

/-- Inserting what is there leaves it there. -/
theorem write_insert {q : Quad} {o : Ox.Quad} (hok : quadToOx H.crates q = .ok o) :
    (OxigraphTransaction.write W).insert st q =
      (.ok (o.encode H.crates ∉ W : Bool), .write (insert (o.encode H.crates) W)) := by
  simp only [OxigraphTransaction.insert, OxigraphTransaction.writer, hok, containsOx_write, decide_eq_true_eq]
  split
  · rename_i hin
    rw [Finset.insert_eq_of_mem hin, decide_eq_false (not_not_intro hin)]
  · rename_i hout
    rw [decide_eq_true hout]

theorem write_remove {q : Quad} {o : Ox.Quad} (hok : quadToOx H.crates q = .ok o) :
    (OxigraphTransaction.write W).remove st q =
      (.ok (o.encode H.crates ∈ W : Bool), .write (W.erase (o.encode H.crates))) := by
  simp only [OxigraphTransaction.remove, OxigraphTransaction.writer, hok, containsOx_write, Bool.not_eq_true',
    decide_eq_false_iff_not]
  split
  · rename_i hout
    rw [Finset.erase_eq_of_notMem hout, decide_eq_false hout]
  · rename_i hin
    rw [decide_eq_true (not_not.mp hin)]

theorem call_insert (st : OxigraphStore H) (h : Keeps W S) {q : Quad} (hq : q.Built) : ∃ r W' S',
    (OxigraphTransaction.write W).call st (.insert q) = (r, .write W') ∧ Keeps W' S' ∧
      Response H.crates S (.insert q) r S' := by
  have hS := fit_of_represents h.represents
  cases hok : quadToOx H.crates q with
  | error u =>
      refine ⟨.flag (.error u.storageError), W, S, ?_, h, .of_unfit hS (unfit_of_refused hok)⟩
      simp only [OxigraphTransaction.call, OxigraphTransaction.insert, OxigraphTransaction.writer, hok]
  | ok o =>
      have hcode := quadCode_ok hok
      refine ⟨.flag (.ok (o.encode H.crates ∉ W : Bool)), insert (o.encode H.crates) W, insert q S, ?_,
        ⟨h.written.put hq hcode, h.represents.insert hq hcode⟩, .of_plain hS ?_ ?_⟩
      · simp only [OxigraphTransaction.call, write_insert hok]
      · rintro q' ⟨⟩
        exact not_unfit hok
      · simp [Accords, plainCall, h.represents.mem_iff hq hcode]

theorem call_remove (st : OxigraphStore H) (h : Keeps W S) {q : Quad} (hq : q.Built) : ∃ r W' S',
    (OxigraphTransaction.write W).call st (.remove q) = (r, .write W') ∧ Keeps W' S' ∧
      Response H.crates S (.remove q) r S' := by
  have hS := fit_of_represents h.represents
  cases hok : quadToOx H.crates q with
  | error u =>
      have hout : q ∉ S := h.represents.not_mem (quadCode_error hok)
      refine ⟨.flag (.ok false), W, S.erase q, ?_, (Finset.erase_eq_of_notMem hout).symm ▸ h, .of_plain hS ?_ ?_⟩
      · simp only [OxigraphTransaction.call, OxigraphTransaction.remove, OxigraphTransaction.writer, hok]
      · rintro q' ⟨⟩
      · simp [Accords, plainCall, hout]
  | ok o =>
      have hcode := quadCode_ok hok
      refine ⟨.flag (.ok (o.encode H.crates ∈ W : Bool)), W.erase (o.encode H.crates), S.erase q, ?_,
        ⟨h.written.delete _, h.represents.erase hq hcode⟩, .of_plain hS ?_ ?_⟩
      · simp only [OxigraphTransaction.call, write_remove hok]
      · rintro q' ⟨⟩
      · simp [Accords, plainCall, h.represents.mem_iff hq hcode]

theorem call_write (st : OxigraphStore H) (h : Keeps W S) {c : Call} (hc : c.Built) : ∃ r W' S',
    (OxigraphTransaction.write W).call st c = (r, .write W') ∧ Keeps W' S' ∧ Response H.crates S c r S' := by
  cases c with
  | insert q => exact call_insert st h hc
  | remove q => exact call_remove st h hc
  | contains q =>
      obtain ⟨hresponse, hsame⟩ := call_reads st (.write W) h.represents hc rfl
      exact ⟨_, W, S, Prod.ext rfl hsame, h, hresponse⟩
  | quadsForPattern s p o g =>
      obtain ⟨hresponse, hsame⟩ := call_reads st (.write W) h.represents hc rfl
      exact ⟨_, W, S, Prod.ext rfl hsame, h, hresponse⟩

/-! ## A transaction -/

/-- The calls of a write transaction conform to the plain set. -/
theorem calls_write (st : OxigraphStore H) (h : Keeps W S) {cs : List Call} (hcs : ∀ c ∈ cs, c.Built) : ∃ rs W' S',
    (OxigraphTransaction.write W).calls st cs = (rs, .write W') ∧ Keeps W' S' ∧ Conforms H.crates S cs rs S' := by
  induction cs generalizing W S with
  | nil => exact ⟨[], W, S, rfl, h, .nil⟩
  | cons c cs ih =>
      obtain ⟨r, W₁, S₁, hcall, h₁, hresponse⟩ := call_write st h (hcs c (List.mem_cons_self ..))
      obtain ⟨rs, W₂, S₂, hcalls, h₂, hconforms⟩ := ih h₁ fun c' hc' => hcs c' (List.mem_cons_of_mem _ hc')
      refine ⟨r :: rs, W₂, S₂, ?_, h₂, .cons hresponse hconforms⟩
      simp only [OxigraphTransaction.calls, hcall, hcalls]

/-- A reply in a read-only transaction: writes are refused, reads answer as the plain set does. -/
structure ReadOnly (B : Crates) (S : Finset Quad) (c : Call) (r : Reply) : Prop where
  refused : c.reads = false → r = .flag (.error AdapterError.readOnlyTransaction.storageError)
  plain : c.reads = true → Response B S c r S

/-- What `begin_read` returns. -/
def Reads (st : OxigraphStore H) (tx : OxigraphTransaction H) : Prop := tx = .snapshot st.inner ∨ tx = .latest

theorem reads_beginRead (st : OxigraphStore H) : Reads st st.beginRead := by
  unfold OxigraphStore.beginRead
  cases st.kind with
  | inMemory => exact Or.inr rfl
  | onDisk => exact Or.inl rfl
  | onDiskReadOnly => exact Or.inr rfl

theorem view_of_reads (h : Reads st tx) : tx.view st = st.inner := by
  rcases h with rfl | rfl <;> rfl

theorem finish_of_reads (h : Reads st tx) (ending : Ending) : tx.finish st ending = (.ok (), st) := by
  rcases h with rfl | rfl <;> cases ending <;> rfl

theorem call_readOnly (h : Represents (quadCode H.crates) st.inner S) (htx : Reads st tx) {c : Call} (hc : c.Built) :
    ReadOnly H.crates S c (tx.call st c).1 ∧ (tx.call st c).2 = tx := by
  rw [← view_of_reads htx] at h
  cases hreads : c.reads with
  | true =>
      obtain ⟨hresponse, hsame⟩ := call_reads st tx h hc hreads
      exact ⟨⟨fun hwrite => (Bool.true_eq_false.mp (hreads.symm.trans hwrite)).elim, fun _ => hresponse⟩, hsame⟩
  | false =>
      have hwriter : tx.writer = .error AdapterError.readOnlyTransaction.storageError := by
        rcases htx with rfl | rfl <;> rfl
      have hplain : c.reads = true → Response H.crates S c (tx.call st c).1 S :=
        fun hread => (Bool.false_ne_true (hreads.symm.trans hread)).elim
      cases c with
      | contains q => cases hreads
      | quadsForPattern s p o g => cases hreads
      | insert q => exact ⟨⟨fun _ => by simp [OxigraphTransaction.call, OxigraphTransaction.insert, hwriter], hplain⟩, by
          simp [OxigraphTransaction.call, OxigraphTransaction.insert, hwriter]⟩
      | remove q => exact ⟨⟨fun _ => by simp [OxigraphTransaction.call, OxigraphTransaction.remove, hwriter], hplain⟩, by
          simp [OxigraphTransaction.call, OxigraphTransaction.remove, hwriter]⟩

theorem calls_readOnly (h : Represents (quadCode H.crates) st.inner S) (htx : Reads st tx) {cs : List Call}
    (hcs : ∀ c ∈ cs, c.Built) :
    List.Forall₂ (ReadOnly H.crates S) cs (tx.calls st cs).1 ∧ (tx.calls st cs).2 = tx := by
  induction cs with
  | nil => exact ⟨.nil, rfl⟩
  | cons c cs ih =>
      obtain ⟨hreply, hsame⟩ := call_readOnly h htx (hcs c (List.mem_cons_self ..))
      obtain ⟨hreplies, hend⟩ := ih fun c' hc' => hcs c' (List.mem_cons_of_mem _ hc')
      simp only [OxigraphTransaction.calls, hsame]
      exact ⟨.cons hreply hreplies, hend⟩

/-! ## The refinement -/

/-- The store holds the set: a read of everything yields it, and nothing in it is unfit. -/
structure Holds (st : OxigraphStore H) (S : Finset Quad) : Prop where
  fit : ∀ q ∈ S, ¬ Unfit H.crates q
  committed : Lists st.committed S

theorem holds_of_represents (h : Represents (quadCode H.crates) st.inner S) : Holds st S where
  fit := fit_of_represents h
  committed := by
    rw [← view_of_reads (reads_beginRead st)] at h
    have hall := quadsForPattern_lists h (s := none) (p := none) (o := none) (g := none) (fun _ hl => by cases hl)
    rwa [Finset.filter_true_of_mem (p := fun q => matchesPattern q none none none none = true) fun q _ => rfl] at hall

/-- A store that was written through the adapter only holds a plain set of quads, and transactions on it are
transactions on that set: the calls of a writer conform to it, a commit leaves what the calls made of it, and any
other ending or a read-only transaction leaves it as it was. -/
theorem adapter_refines_plain_set (H : Backend) (st : OxigraphStore H) (hst : Written (quadCode H.crates) st.inner) :
    ∃ S, Holds st S ∧ ∀ cs : List Call, (∀ c ∈ cs, c.Built) →
      (st.kind = .onDiskReadOnly → st.beginWrite = .error AdapterError.readOnlyStore.storageError) ∧
      (st.kind ≠ .onDiskReadOnly → ∃ tx rs tx' S', st.beginWrite = .ok tx ∧ tx.calls st cs = (rs, tx') ∧
        Conforms H.crates S cs rs S' ∧
        ∀ ending, (tx'.finish st ending).1 = .ok () ∧
          Holds (tx'.finish st ending).2 (if ending = .commit then S' else S) ∧
          Written (quadCode H.crates) (tx'.finish st ending).2.inner) ∧
      ∃ rs tx', st.beginRead.calls st cs = (rs, tx') ∧ List.Forall₂ (ReadOnly H.crates S) cs rs ∧
        ∀ ending, tx'.finish st ending = (.ok (), st) := by
  obtain ⟨S, hS⟩ := hst.represents
  refine ⟨S, holds_of_represents hS, fun cs hcs => ⟨fun hkind => if_pos hkind, ?_, ?_⟩⟩
  · intro hkind
    obtain ⟨rs, W', S', hcalls, ⟨hwritten, hS'⟩, hconforms⟩ := calls_write st ⟨hst, hS⟩ hcs
    refine ⟨_, rs, _, S', if_neg hkind, hcalls, hconforms, fun ending => ?_⟩
    cases ending with
    | commit => exact ⟨rfl, holds_of_represents hS', hwritten⟩
    | rollback => exact ⟨rfl, holds_of_represents hS, hst⟩
    | drop => exact ⟨rfl, holds_of_represents hS, hst⟩
  · obtain ⟨hreplies, hsame⟩ := calls_readOnly hS (reads_beginRead st) hcs
    refine ⟨_, _, rfl, hreplies, fun ending => ?_⟩
    rw [hsame]
    exact finish_of_reads (reads_beginRead st) ending

/-- A backend that streams in some order. -/
noncomputable def integerBackend : Backend where
  crates := integerCrates
  scan K s p o g := (K.filter (·.matches s p o g)).toList
  nodup_scan K s p o g := Finset.nodup_toList _
  mem_scan K s p o g k := by simp

theorem adapter_refines_plain_set_integers : ∃ S rs tx' S',
    (OxigraphTransaction.write (H := integerBackend) ∅).calls ⟨∅, .inMemory⟩
        [.insert (measured "1" (xsd ++ "integer")), .insert (measured "01" (xsd ++ "integer")),
          .remove (measured "01" (xsd ++ "integer"))] = (rs, tx') ∧
      Conforms integerCrates S [.insert (measured "1" (xsd ++ "integer")), .insert (measured "01" (xsd ++ "integer")),
          .remove (measured "01" (xsd ++ "integer"))] rs S' := by
  have hbuilt : ∀ value, (measured value (xsd ++ "integer")).Built := by
    rintro value l ⟨⟩
    exact .typed _ _
  obtain ⟨S, -, hruns⟩ := adapter_refines_plain_set integerBackend ⟨∅, .inMemory⟩ .empty
  obtain ⟨-, hwrite, -⟩ := hruns
    [.insert (measured "1" (xsd ++ "integer")), .insert (measured "01" (xsd ++ "integer")),
      .remove (measured "01" (xsd ++ "integer"))] (by
        intro c hc
        simp only [List.mem_cons, List.not_mem_nil, or_false] at hc
        rcases hc with rfl | rfl | rfl <;> exact hbuilt _)
  obtain ⟨tx, rs, tx', S', hbegin, hcalls, hconforms, -⟩ := hwrite (by decide)
  cases hbegin
  exact ⟨S, rs, tx', S', hcalls, hconforms⟩

end Semanticore.Oxigraph
