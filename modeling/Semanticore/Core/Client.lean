import Semanticore.Core.Backend
import Semanticore.Lib.Success

/-!
# Code written against the storage traits

Reasoners and checks know a store by `Storage` and `StorageTransaction` only. An error of the backend ends the code
early, and a transaction that is open then is dropped.
-/

namespace Semanticore.Core
open Semanticore.Lib

/-- What an error of the backend ends a program with. -/
class Raises (ε : Type) where
  raise : StorageError → ε

/-- The operator `?` passes the error on. -/
instance : Raises StorageError := ⟨id⟩

abbrev Client (B : Storage) := Prog B.Store StorageError

variable {B : Storage} {Fit : Quad → Prop} {α ε : Type} [Raises ε]

namespace Client

/-- The operator `?`, or an `unwrap`. -/
def ofExcept : Except StorageError α → Prog B.Store ε α
  | .ok a => return a
  | .error e => throw (Raises.raise e)

def beginRead : Prog B.Store ε B.Tx := do ofExcept (B.beginRead (← get))

def beginWrite : Prog B.Store ε B.Tx := do ofExcept (B.beginWrite (← get))

/-- `tx.insert(q)?`, with the transaction it leaves. -/
def insert (tx : B.Tx) (q : Quad) : Prog B.Store ε (Bool × B.Tx) := do
  let (r, tx) := B.insert (← get) tx q
  return (← ofExcept r, tx)

def remove (tx : B.Tx) (q : Quad) : Prog B.Store ε (Bool × B.Tx) := do
  let (r, tx) := B.remove (← get) tx q
  return (← ofExcept r, tx)

def contains (tx : B.Tx) (q : Quad) : Prog B.Store ε Bool := do ofExcept (B.contains (← get) tx q)

/-- `tx.quads_for_pattern(..).collect::<Result<_, _>>()?` -/
def quadsForPattern (tx : B.Tx) (s : Option NamedOrBlankNode) (p : Option NamedNode) (o : Option Term)
    (g : Option NamedOrDefault) : Prog B.Store ε (List Quad) := do
  ofExcept ((B.quadsForPattern (← get) tx s p o g).mapM id)

def commit (tx : B.Tx) : Prog B.Store ε Unit := do
  let (r, store) := B.commit (← get) tx
  set store
  ofExcept r

def rollback (tx : B.Tx) : Prog B.Store ε Unit := do
  let (r, store) := B.rollback (← get) tx
  set store
  ofExcept r

def quadCount : Prog B.Store ε Nat := do ofExcept (B.quadCount (← get))

def namedGraphs : Prog B.Store ε (List NamedNode) := do ofExcept (B.namedGraphs (← get))

def insertEach (tx : B.Tx) (quads : List Quad) : Prog B.Store ε B.Tx :=
  quads.foldlM (fun tx q => return (← insert tx q).2) tx

def removeEach (tx : B.Tx) (quads : List Quad) : Prog B.Store ε B.Tx :=
  quads.foldlM (fun tx q => return (← remove tx q).2) tx

/-- Insert `quads` in one committed write transaction. -/
def load (quads : List Quad) : Prog B.Store ε Unit := do
  let tx ← beginWrite
  let tx ← insertEach tx quads
  commit tx

/-- Remove `quads` in one committed write transaction. -/
def unload (quads : List Quad) : Prog B.Store ε Unit := do
  let tx ← beginWrite
  let tx ← removeEach tx quads
  commit tx

theorem ofExcept_succeeds {s : B.Store} {r : Except StorageError α} {a : α} (h : r = .ok a) :
    Succeeds (ofExcept (B := B) (ε := ε) r) s fun a' s' => a' = a ∧ s' = s := by
  subst h
  exact .ret ⟨rfl, rfl⟩

/-- The end of a transaction puts the store in place that it leaves. -/
theorem ending_succeeds {s s' : B.Store} {r : Except StorageError Unit × B.Store} (h : r = (.ok (), s')) :
    Succeeds (do set r.2; ofExcept (ε := ε) r.1) s fun _ s'' => s'' = s' := by
  subst h
  exact .write ((ofExcept_succeeds rfl).mono fun _ _ h => h.2)

theorem rollback_succeeds {s : B.Store} {tx : B.Tx} (h : B.rollback s tx = (.ok (), s)) :
    Succeeds (rollback (ε := ε) tx) s fun _ s' => True ∧ s' = s :=
  .read ((ending_succeeds h).mono fun _ _ hs => ⟨trivial, hs⟩)

theorem commitReader_succeeds {s : B.Store} {tx : B.Tx} (h : B.commit s tx = (.ok (), s)) :
    Succeeds (commit (ε := ε) tx) s fun _ s' => True ∧ s' = s :=
  .read ((ending_succeeds h).mono fun _ _ hs => ⟨trivial, hs⟩)

/-! ## Over a plain set of quads

Every call succeeds, on quads that fit. -/

section
variable (K : B.PlainSet Fit) {s : B.Store} {tx : B.Tx} {S : Finset Quad} {q : Quad} {quads : List Quad}

include K

theorem beginRead_succeeds (h : K.holds s S) :
    Succeeds (beginRead (B := B) (ε := ε)) s fun tx s' => K.reads s tx S ∧ s' = s := by
  obtain ⟨tx, htx, hreads⟩ := K.beginRead h
  exact .read ((ofExcept_succeeds htx).mono fun a _ hs => ⟨hs.1 ▸ hreads, hs.2⟩)

theorem beginWrite_succeeds (h : K.holds s S) :
    Succeeds (beginWrite (B := B) (ε := ε)) s fun tx s' => K.writes s tx S ∧ s' = s := by
  obtain ⟨tx, htx, hwrites⟩ := K.beginWrite h
  exact .read ((ofExcept_succeeds htx).mono fun a _ hs => ⟨hs.1 ▸ hwrites, hs.2⟩)

theorem insert_succeeds (h : K.writes s tx S) (hq : Fit q) : Succeeds (insert (ε := ε) tx q) s fun r s' =>
    (r.1 = decide (q ∉ S) ∧ K.writes s r.2 (Insert.insert q S)) ∧ s' = s := by
  obtain ⟨tx', htx, hwrites⟩ := K.insert h hq
  refine .read ?_
  simp only [htx]
  exact (ofExcept_succeeds rfl).next fun b hb => .ret ⟨⟨hb, hwrites⟩, rfl⟩

theorem remove_succeeds (h : K.writes s tx S) (hq : Fit q) : Succeeds (remove (ε := ε) tx q) s fun r s' =>
    (r.1 = decide (q ∈ S) ∧ K.writes s r.2 (S.erase q)) ∧ s' = s := by
  obtain ⟨tx', htx, hwrites⟩ := K.remove h hq
  refine .read ?_
  simp only [htx]
  exact (ofExcept_succeeds rfl).next fun b hb => .ret ⟨⟨hb, hwrites⟩, rfl⟩

theorem contains_succeeds (h : K.writes s tx S ∨ K.reads s tx S) (hq : Fit q) :
    Succeeds (contains (ε := ε) tx q) s fun b s' => b = decide (q ∈ S) ∧ s' = s :=
  .read (ofExcept_succeeds (K.contains h hq))

theorem quadsForPattern_succeeds {sub : Option NamedOrBlankNode} {p : Option NamedNode} {o : Option Term}
    {g : Option NamedOrDefault} (h : K.writes s tx S ∨ K.reads s tx S) (ho : BuiltObject o) :
    Succeeds (quadsForPattern (ε := ε) tx sub p o g) s fun qs s' =>
      (qs.Nodup ∧ ∀ q, q ∈ qs ↔ q ∈ S ∧ matchesPattern q sub p o g) ∧ s' = s := by
  obtain ⟨qs, hqs, hfound⟩ := K.collect sub p o g h ho
  exact .read ((ofExcept_succeeds hqs).mono fun l _ hl => ⟨hl.1 ▸ hfound, hl.2⟩)

theorem commit_succeeds (h : K.writes s tx S) : Succeeds (commit (ε := ε) tx) s fun _ s' => K.holds s' S := by
  obtain ⟨s', hcommit, hholds⟩ := K.commit h
  exact .read ((ending_succeeds hcommit).mono fun _ _ hs => hs ▸ hholds)

theorem quadCount_succeeds (h : K.holds s S) :
    Succeeds (quadCount (B := B) (ε := ε)) s fun n s' => n = S.card ∧ s' = s :=
  .read (ofExcept_succeeds (K.quadCount h))

theorem insertEach_succeeds (h : K.writes s tx S) (hfit : ∀ q ∈ quads, Fit q) :
    Succeeds (insertEach (ε := ε) tx quads) s fun tx' s' => K.writes s tx' (S ∪ quads.toFinset) ∧ s' = s := by
  refine (Succeeds.foldlM (I := fun rest tx => (∀ q ∈ rest, Fit q) ∧
    ∃ T, K.writes s tx T ∧ T ∪ rest.toFinset = S ∪ quads.toFinset) ?_ ⟨hfit, S, h, rfl⟩).mono ?_
  · rintro tx q rest ⟨hrest, T, hT, hunion⟩
    refine (insert_succeeds K hT (hrest q List.mem_cons_self)).next fun r hr => .ret ⟨⟨?_, _, hr.2, ?_⟩, rfl⟩
    · exact fun q' hq => hrest q' (List.mem_cons_of_mem _ hq)
    · rw [← hunion, List.toFinset_cons, Finset.insert_union, Finset.union_insert]
  · rintro tx' s' ⟨⟨-, T, hT, hunion⟩, rfl⟩
    rw [List.toFinset_nil, Finset.union_empty] at hunion
    exact ⟨hunion ▸ hT, rfl⟩

theorem removeEach_succeeds (h : K.writes s tx S) (hfit : ∀ q ∈ quads, Fit q) :
    Succeeds (removeEach (ε := ε) tx quads) s fun tx' s' => K.writes s tx' (S \ quads.toFinset) ∧ s' = s := by
  refine (Succeeds.foldlM (I := fun rest tx => (∀ q ∈ rest, Fit q) ∧
    ∃ T, K.writes s tx T ∧ T \ rest.toFinset = S \ quads.toFinset) ?_ ⟨hfit, S, h, rfl⟩).mono ?_
  · rintro tx q rest ⟨hrest, T, hT, hdiff⟩
    refine (remove_succeeds K hT (hrest q List.mem_cons_self)).next fun r hr => .ret ⟨⟨?_, _, hr.2, ?_⟩, rfl⟩
    · exact fun q' hq => hrest q' (List.mem_cons_of_mem _ hq)
    · rw [← hdiff, List.toFinset_cons, Finset.sdiff_insert, Finset.erase_sdiff_comm]
  · rintro tx' s' ⟨⟨-, T, hT, hdiff⟩, rfl⟩
    rw [List.toFinset_nil, Finset.sdiff_empty] at hdiff
    exact ⟨hdiff ▸ hT, rfl⟩

theorem load_succeeds (h : K.holds s S) (hfit : ∀ q ∈ quads, Fit q) :
    Succeeds (load (B := B) (ε := ε) quads) s fun _ s' => K.holds s' (S ∪ quads.toFinset) :=
  (beginWrite_succeeds K h).next fun _ htx => (insertEach_succeeds K htx hfit).next fun _ htx => commit_succeeds K htx

theorem unload_succeeds (h : K.holds s S) (hfit : ∀ q ∈ quads, Fit q) :
    Succeeds (unload (B := B) (ε := ε) quads) s fun _ s' => K.holds s' (S \ quads.toFinset) :=
  (beginWrite_succeeds K h).next fun _ htx => (removeEach_succeeds K htx hfit).next fun _ htx => commit_succeeds K htx

omit [Raises ε] in
/-- A loop that counts the quads it adds, where `g` is what a round makes of the set. -/
theorem foldlM_counted {f : B.Tx × Nat → Quad → Prog B.Store ε (B.Tx × Nat)} {g : Finset Quad → Quad → Finset Quad}
    (hstep : ∀ tx n T q, K.writes s tx T → Succeeds (f (tx, n) q) s fun r s' =>
      (K.writes s r.1 (g T q) ∧ r.2 + T.card = n + (g T q).card) ∧ s' = s) (h : K.writes s tx S) :
    Succeeds (quads.foldlM f (tx, 0)) s fun r s' =>
      (K.writes s r.1 (quads.foldl g S) ∧ r.2 + S.card = (quads.foldl g S).card) ∧ s' = s := by
  refine (Succeeds.foldlM (I := fun rest (acc : B.Tx × Nat) => ∃ T, K.writes s acc.1 T ∧
    rest.foldl g T = quads.foldl g S ∧ acc.2 + S.card = T.card) ?_ ⟨S, h, rfl, by simp⟩).mono ?_
  · rintro ⟨tx, n⟩ q rest ⟨T, hT, hrest, hcount⟩
    refine (hstep tx n T q hT).mono fun r s' hr => ⟨⟨_, hr.1.1, hrest, ?_⟩, hr.2⟩
    have hadded := hr.1.2
    omega
  · rintro ⟨tx, n⟩ s' ⟨⟨T, hT, hrest, hcount⟩, rfl⟩
    cases hrest
    exact ⟨⟨hT, hcount⟩, rfl⟩

end

end Client

end Semanticore.Core
