import Semanticore.Context.Session

/-!
# Item graphs and the quads of an item

An item's quads are recognised by their graph or, for the metadata quad, by their subject. Printing an id and
parsing the graph name are inverse, so every quad belongs to at most one id, whatever its other terms mention.
-/

namespace Semanticore.Context
open Semanticore.Core

/-! ## Graph names -/

theorem toList_toString (n : Nat) : (toString n).toList = Nat.toDigits 10 n := Nat.toList_repr

theorem itemGraph_injective {a b : ItemId} (h : itemGraph a = itemGraph b) : a = b := by
  have hlist := congrArg (fun g => g.iri.toList) h
  simp only [itemGraph, String.toList_append, toList_toString] at hlist
  have hdigits := congrArg (Nat.ofDigitChars 10 · 0) (List.append_cancel_left hlist)
  simp only [Nat.ofDigitChars_ten_toDigits] at hdigits
  exact ItemId.toNat_injective hdigits

theorem itemGraph_inj {a b : ItemId} : itemGraph a = itemGraph b ↔ a = b := ⟨itemGraph_injective, congrArg _⟩

theorem metaGraph_ne_itemGraph (id : ItemId) : metaGraph ≠ .named (itemGraph id) := by
  intro h
  have hiri := congrArg (fun n : NamedNode => n.iri.toList) (NamedOrDefault.named.inj h)
  simp only [itemGraph, itemPrefix, String.toList_append] at hiri
  -- The two names part at the character after their common beginning.
  have hchar := congrArg (fun l => l[24]?) hiri
  simp at hchar

theorem stripPrefix_append (pre s : String) : stripPrefix (pre ++ s) pre = some s := by
  simp [stripPrefix, String.toList_append]

/-- No printed number starts with `+`. -/
theorem stripPlus_eq_self {ds : List Char} (h : ∀ c ∈ ds, c.isDigit) : stripPlus ds = ds := by
  unfold stripPlus
  split
  · cases h '+' (by simp)
  · rfl

theorem parseU64_toString (n : UInt64) : parseU64 (toString n.toNat) = some n := by
  have hdigits : ∀ c ∈ Nat.toDigits 10 n.toNat, c.isDigit := fun c hc =>
    Nat.isDigit_of_mem_toDigits (by decide) (by decide) hc
  have hne : (Nat.toDigits 10 n.toNat).isEmpty = false := by
    rw [List.isEmpty_eq_false_iff]
    exact Nat.toDigits_ne_nil
  have hall : (Nat.toDigits 10 n.toNat).all Char.isDigit = true := List.all_eq_true.mpr hdigits
  have hlt : n.toNat < 2 ^ 64 := n.toNat_lt
  unfold parseU64
  rw [toList_toString, stripPlus_eq_self hdigits]
  simp only [hne, hall, Nat.ofDigitChars_ten_toDigits, hlt, UInt64.ofNat_toNat, Bool.not_true, Bool.or_self,
    Bool.false_eq_true, if_false, if_true]

theorem parseItemGraph_itemGraph (id : ItemId) : parseItemGraph (itemGraph id) = some id := by
  unfold parseItemGraph itemGraph
  rw [stripPrefix_append]
  simp only [Option.bind_eq_bind, Option.bind_some, parseU64_toString, if_true]

/-- Only a printed id parses. -/
theorem eq_itemGraph_of_parseItemGraph {g : NamedNode} {id : ItemId} (h : parseItemGraph g = some id) :
    g = itemGraph id := by
  unfold parseItemGraph at h
  obtain ⟨n, hn, h⟩ := Option.bind_eq_some_iff.mp h
  obtain ⟨m, hm, h⟩ := Option.bind_eq_some_iff.mp h
  split at h
  · rename_i hcanon
    cases h
    unfold stripPrefix at hn
    split at hn
    · rename_i hpre
      cases hn
      have happ := List.prefix_iff_eq_append.mp (List.isPrefixOf_iff_prefix.mp hpre)
      cases g with
      | mk iri =>
          simp only [itemGraph, hcanon, NamedNode.mk.injEq]
          apply String.toList_inj.mp
          simpa [String.toList_append] using happ.symm
    · cases hn
  · cases h

theorem parseItemGraph_eq_some {g : NamedNode} {id : ItemId} :
    parseItemGraph g = some id ↔ g = itemGraph id :=
  ⟨eq_itemGraph_of_parseItemGraph, fun h => h ▸ parseItemGraph_itemGraph id⟩

/-- A graph name parses to an id exactly if it is the one printed for the id. So parsing undoes printing, an id has one
graph name, and no other name is taken for an item graph, the name of the meta graph included. -/
theorem item_graphs_one_to_one :
    (∀ (n : UInt64) (g : NamedNode), parseItemGraph g = some ⟨n⟩ ↔ g = itemGraph ⟨n⟩) ∧
      (∀ id, parseItemGraph (itemGraph id) = some id) ∧
      (∀ g g' id, parseItemGraph g = some id → parseItemGraph g' = some id → g = g') ∧
      (∀ g, (∀ id, g ≠ itemGraph id) → parseItemGraph g = none) ∧
      ∀ g, metaGraph = .named g → parseItemGraph g = none := by
  have hnone : ∀ g, (∀ id, g ≠ itemGraph id) → parseItemGraph g = none := by
    intro g hg
    rw [Option.eq_none_iff_forall_ne_some]
    exact fun id h => hg id (parseItemGraph_eq_some.mp h)
  refine ⟨fun n g => parseItemGraph_eq_some, parseItemGraph_itemGraph, fun g g' id h h' => ?_, hnone, fun g hmeta => ?_⟩
  · rw [parseItemGraph_eq_some.mp h, parseItemGraph_eq_some.mp h']
  · refine hnone g fun id hg => metaGraph_ne_itemGraph id ?_
    rw [hmeta, hg]

example : ["7", "07", "+7", "-7", "", "7x", "18446744073709551615", "18446744073709551616"].map
    (fun n => parseItemGraph ⟨itemPrefix ++ n⟩) =
      [some ⟨7⟩, none, none, none, none, none, some ⟨18446744073709551615⟩, none] := by decide +kernel

/-! ## The quads of an item -/

/-- `q` is one of the quads that represent the item `id`, judged by its graph and subject alone. -/
def Owned (id : ItemId) (q : Quad) : Prop :=
  q.graph = .named (itemGraph id) ∨
    q.subject = .named (itemGraph id) ∧ q.predicate = recordPredicate ∧ q.graph = metaGraph

instance (id : ItemId) (q : Quad) : Decidable (Owned id q) := by unfold Owned; infer_instance

theorem Owned.unique {a b : ItemId} {q : Quad} (ha : Owned a q) (hb : Owned b q) : a = b := by
  rcases ha with ha | ⟨ha, _, ha'⟩ <;> rcases hb with hb | ⟨hb, _, hb'⟩
  · exact itemGraph_injective (by simpa [ha] using hb)
  · exact (metaGraph_ne_itemGraph a (hb' ▸ ha)).elim
  · exact (metaGraph_ne_itemGraph b (ha' ▸ hb)).elim
  · exact itemGraph_injective (by simpa [ha] using hb)

variable {P : Platform}

theorem mem_encode {id : ItemId} {item : ContextItem} {q : Quad} :
    q ∈ encode P id item ↔ (∃ t ∈ item.payload.quads, inItemGraph id t = q) ∨ q = metadataQuad P id item := by
  simp [encode]

theorem metadataQuad_mem_encode (P : Platform) (id : ItemId) (item : ContextItem) :
    metadataQuad P id item ∈ encode P id item := mem_encode.mpr (Or.inr rfl)

theorem owned_of_mem_encode {id : ItemId} {item : ContextItem} {q : Quad} (h : q ∈ encode P id item) :
    Owned id q := by
  rcases mem_encode.mp h with ⟨t, _, rfl⟩ | rfl
  · exact Or.inl rfl
  · exact Or.inr ⟨rfl, rfl, rfl⟩

/-- An item has one metadata quad. -/
theorem eq_metadataQuad {id : ItemId} {item : ContextItem} {q : Quad} (hq : q ∈ encode P id item)
    (hmeta : q.graph = metaGraph) : q = metadataQuad P id item := by
  rcases mem_encode.mp hq with ⟨t, -, rfl⟩ | rfl
  · exact (metaGraph_ne_itemGraph id hmeta.symm).elim
  · rfl

/-! ## Deleting and writing an item -/

theorem mem_deleteQuads {id : ItemId} {st : Store} {q : Quad} :
    q ∈ deleteQuads P id st ↔ q ∈ st ∧ ¬ Owned id q := by
  simp only [deleteQuads, Store.mem_removeAll, List.mem_append, Platform.mem_quadsForPattern, matchesPattern,
    Option.all_none, Option.all_some, Bool.and_true, Bool.true_and, decide_eq_true_eq, Bool.and_eq_true, Owned]
  tauto

theorem mem_encodeBatch {batch : List (ItemId × ContextItem)} {q : Quad} :
    q ∈ encodeBatch P batch ↔ ∃ p ∈ batch, q ∈ encode P p.1 p.2 := by
  simp [encodeBatch]

end Semanticore.Context
