import Semanticore.Core.Model

/-!
# Quad stores

What a `Storage` backend holds between transactions: a set of quads. A store lists each quad once; the order of
the list carries no meaning, since the order in which a backend streams its quads is a parameter of the code that
reads them.
-/

namespace Semanticore.Core

/-- `matches_pattern`: `none` matches anything. -/
def matchesPattern (q : Quad) (s : Option NamedOrBlankNode) (p : Option NamedNode) (o : Option Term)
    (g : Option NamedOrDefault) : Bool :=
  s.all (q.subject = ·) && p.all (q.predicate = ·) && o.all (q.object = ·) && g.all (q.graph = ·)

structure Store where
  quads : List Quad
  nodup : quads.Nodup

namespace Store

instance : Membership Quad Store := ⟨fun st q => q ∈ st.quads⟩

instance (q : Quad) (st : Store) : Decidable (q ∈ st) := inferInstanceAs (Decidable (q ∈ st.quads))

def empty : Store := ⟨[], .nil⟩

/-- `StorageTransaction::insert`: a quad that is already there is not added again. -/
def insert (st : Store) (q : Quad) : Store := ⟨st.quads.insert q, st.nodup.insert⟩

/-- `StorageTransaction::remove`. -/
def remove (st : Store) (q : Quad) : Store := ⟨st.quads.erase q, st.nodup.erase q⟩

/-- The quads that match a pattern. -/
def select (st : Store) (s : Option NamedOrBlankNode) (p : Option NamedNode) (o : Option Term)
    (g : Option NamedOrDefault) : List Quad :=
  st.quads.filter (matchesPattern · s p o g)

variable {st : Store} {q r : Quad}

@[simp] theorem not_mem_empty : q ∉ Store.empty := List.not_mem_nil

@[simp] theorem mem_insert : r ∈ st.insert q ↔ r = q ∨ r ∈ st := List.mem_insert_iff

@[simp] theorem mem_remove : r ∈ st.remove q ↔ r ≠ q ∧ r ∈ st := st.nodup.mem_erase_iff

@[simp] theorem mem_select {s p o g} : q ∈ st.select s p o g ↔ q ∈ st ∧ matchesPattern q s p o g :=
  List.mem_filter

/-! ## Writing and deleting several quads -/

/-- `insert_all`. -/
def insertAll (st : Store) (qs : List Quad) : Store := qs.foldl Store.insert st

def removeAll (st : Store) (qs : List Quad) : Store := qs.foldl Store.remove st

@[simp] theorem mem_insertAll {qs : List Quad} : r ∈ st.insertAll qs ↔ r ∈ qs ∨ r ∈ st := by
  unfold insertAll
  induction qs generalizing st with
  | nil => simp
  | cons q qs ih => simp only [List.foldl_cons, ih, mem_insert, List.mem_cons]; tauto

@[simp] theorem mem_removeAll {qs : List Quad} : r ∈ st.removeAll qs ↔ r ∉ qs ∧ r ∈ st := by
  unfold removeAll
  induction qs generalizing st with
  | nil => simp
  | cons q qs ih => simp only [List.foldl_cons, ih, mem_remove, List.mem_cons]; tauto

end Store

end Semanticore.Core
