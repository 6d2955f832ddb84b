import Mathlib.Data.Finset.Insert
import Mathlib.Logic.Relation
import Mathlib.Tactic

/-!
# Worklists

The nodes that a finite graph leads to. Each round takes a node off a stack; if it was not seen before, it is added to
the nodes seen and its successors are put on the stack.
-/

namespace Semanticore.Lib

variable {α : Type}

/-- `b` can be reached from `a` along edges. -/
def Reaches (edges : List (α × α)) : α → α → Prop := Relation.ReflTransGen fun a b => (a, b) ∈ edges

/-- An edge leads out of no set that is closed. -/
def Closed (edges : List (α × α)) (seen : Finset α) : Prop := ∀ a ∈ seen, ∀ b, (a, b) ∈ edges → b ∈ seen

variable {edges : List (α × α)} {seen : Finset α} {todo : List α} {a b : α}

/-- A path from what has been seen leaves it through the stack. -/
theorem Reaches.frontier (h : ∀ a ∈ seen, ∀ b, (a, b) ∈ edges → b ∈ seen ∨ b ∈ todo) (ha : a ∈ seen)
    (hr : Reaches edges a b) : b ∈ seen ∨ ∃ c ∈ todo, Reaches edges c b := by
  induction hr with
  | refl => exact Or.inl ha
  | tail _ hedge ih =>
      rcases ih with hs | ⟨c, hc, hr⟩
      · exact (h _ hs _ hedge).imp_right fun ht => ⟨_, ht, .refl⟩
      · exact Or.inr ⟨c, hc, hr.tail hedge⟩

theorem reaches_iff : Reaches edges a b ↔ b = a ∨ ∃ c, (a, c) ∈ edges ∧ Reaches edges c b := by
  rw [Reaches, Relation.ReflTransGen.cases_head_iff, eq_comm]

variable [DecidableEq α]

def successors (edges : List (α × α)) (a : α) : List α := (edges.filter (·.1 = a)).map (·.2)

@[simp] theorem mem_successors : b ∈ successors edges a ↔ (a, b) ∈ edges := by
  simp [successors]

/-- The edges that no round has followed. -/
def unfollowed (edges : List (α × α)) (seen : Finset α) : Nat := edges.countP (·.1 ∉ seen)

/-- A new node takes as many edges off the count as it puts nodes on the stack. -/
theorem unfollowed_insert (ha : a ∉ seen) :
    unfollowed edges (insert a seen) + (successors edges a).length = unfollowed edges seen := by
  simp only [unfollowed, successors, List.length_map]
  induction edges with
  | nil => simp
  | cons e edges ih =>
      simp only [List.countP_cons, List.filter_cons, Finset.mem_insert, decide_eq_true_eq] at ih ⊢
      by_cases he : e.1 = a
      · simp only [he, ha, true_or, not_true_eq_false, not_false_eq_true, if_true, if_false, List.length_cons]
        omega
      · by_cases hs : e.1 ∈ seen
        · simp only [he, hs, or_true, not_true_eq_false, if_false]
          omega
        · simp only [he, hs, or_self, not_false_eq_true, if_true, if_false]
          omega

def worklist (edges : List (α × α)) (seen : Finset α) : List α → Finset α
  | [] => seen
  | a :: todo =>
      if a ∈ seen then worklist edges seen todo
      else worklist edges (insert a seen) ((successors edges a).reverse ++ todo)
termination_by todo => unfollowed edges seen + todo.length
decreasing_by
  · simp
  · have hopen : unfollowed edges (insert a seen) + (successors edges a).length = unfollowed edges seen :=
      unfollowed_insert (by assumption)
    simp only [List.length_append, List.length_reverse, List.length_cons]
    omega

theorem worklist_cons_seen (h : a ∈ seen) : worklist edges seen (a :: todo) = worklist edges seen todo := by
  rw [worklist, if_pos h]

theorem worklist_cons_new (h : a ∉ seen) :
    worklist edges seen (a :: todo) = worklist edges (insert a seen) ((successors edges a).reverse ++ todo) := by
  rw [worklist, if_neg h]

/-- The nodes seen and what the stack leads to, as long as no edge leads out of them. -/
theorem mem_worklist (h : ∀ a ∈ seen, ∀ b, (a, b) ∈ edges → b ∈ seen ∨ b ∈ todo) :
    b ∈ worklist edges seen todo ↔ b ∈ seen ∨ ∃ a ∈ todo, Reaches edges a b := by
  induction seen, todo using worklist.induct edges with
  | case1 seen => simp [worklist]
  | case2 seen a todo ha ih =>
      have hrest : ∀ c ∈ seen, ∀ d, (c, d) ∈ edges → d ∈ seen ∨ d ∈ todo := by
        intro c hc d hd
        rcases h c hc d hd with hd | hd
        · exact Or.inl hd
        · rcases List.mem_cons.mp hd with rfl | hd
          · exact Or.inl ha
          · exact Or.inr hd
      rw [worklist_cons_seen ha, ih hrest]
      constructor
      · exact Or.imp_right fun ⟨c, hc, hr⟩ => ⟨c, List.mem_cons_of_mem _ hc, hr⟩
      · rintro (hb | ⟨c, hc, hr⟩)
        · exact Or.inl hb
        · rcases List.mem_cons.mp hc with rfl | hc
          · exact hr.frontier hrest ha
          · exact Or.inr ⟨c, hc, hr⟩
  | case3 seen a todo ha ih =>
      have hrest : ∀ c ∈ insert a seen, ∀ d, (c, d) ∈ edges →
          d ∈ insert a seen ∨ d ∈ (successors edges a).reverse ++ todo := by
        intro c hc d hd
        rcases Finset.mem_insert.mp hc with rfl | hc
        · exact Or.inr (by simp [hd])
        · rcases h c hc d hd with hd | hd
          · exact Or.inl (Finset.mem_insert_of_mem hd)
          · rcases List.mem_cons.mp hd with rfl | hd
            · exact Or.inl (Finset.mem_insert_self _ _)
            · exact Or.inr (List.mem_append_right _ hd)
      rw [worklist_cons_new ha, ih hrest]
      simp only [Finset.mem_insert, List.mem_append, List.mem_reverse, mem_successors, List.mem_cons,
        or_and_right, exists_or, exists_eq_left]
      rw [reaches_iff (a := a), or_comm (a := b = a)]
      simp only [or_assoc]

end Semanticore.Lib
