import Semanticore.Python.Terms
import Mathlib.Data.String.Basic

/-!
# Event bodies

`json_from_py` and `json_to_py`. A `serde_json` object is sorted by key; a Python `dict` keeps the order of insertion.
-/

namespace Semanticore.Python
open Semanticore.Core Semanticore.Context Semanticore.Lib

/-! ## From Python -/

/-- `f64::is_finite`: the exponent is not all ones. -/
def isFinite (bits : UInt64) : Bool := (bits >>> 52) &&& 0x7FF != 0x7FF

/-- `Value::from` on an integer that fits `i64` or else `u64`. -/
def numberFromInt (n : Int) : PyResult Number :=
  if -2 ^ 63 ≤ n ∧ n < 2 ^ 63 then .ok (if n < 0 then .negInt (.ofInt n) else .posInt (.ofNat n.toNat))
  else if 0 ≤ n ∧ n < 2 ^ 64 then .ok (.posInt (.ofNat n.toNat))
  else .error (.valueError "integer out of range for a JSON event body (i64/u64)")

/-- `Map::insert`. -/
def insertField (k : String) (v : Json) : List (String × Json) → List (String × Json)
  | [] => [(k, v)]
  | (k', v') :: fields =>
      if k < k' then (k, v) :: (k', v') :: fields
      else if k = k' then (k, v) :: fields
      else (k', v') :: insertField k v fields

/-- The key of an entry. -/
def keyFromPy : PyObj → PyResult String
  | .str s => s.toStr
  | o => .error (.typeError ("event body keys must be str, not " ++ o.typeName))

mutual

def jsonFromPy : PyObj → PyResult Json
  | .none => .ok .null
  | .bool b => .ok (.bool b)
  | .int n => do return .number (← numberFromInt n)
  | .float bits =>
      if isFinite bits then .ok (.number (.float bits))
      else .error (.valueError "event bodies cannot hold NaN or infinity")
  | .str s => do return .string (← s.toStr)
  | .list items => do return .array (← jsonsFromPy items)
  | .tuple items => do return .array (← jsonsFromPy items)
  | .dict entries => do return .object (← fieldsFromPy [] entries)
  | o => .error (.typeError (o.typeName ++ " is not JSON-serializable"))

def jsonsFromPy : List PyObj → PyResult (List Json)
  | [] => .ok []
  | o :: items => do
      let v ← jsonFromPy o
      let vs ← jsonsFromPy items
      return v :: vs

/-- The loop over the entries of a `dict`, with the map so far. -/
def fieldsFromPy (map : List (String × Json)) : List (PyObj × PyObj) → PyResult (List (String × Json))
  | [] => .ok map
  | (k, o) :: entries => do
      let k ← keyFromPy k
      let v ← jsonFromPy o
      fieldsFromPy (insertField k v map) entries

end

/-! ## To Python -/

/-- A number as `i64`, `u64` or else `f64`. -/
def numberToPy : Number → PyObj
  | .posInt n => .int n.toNat
  | .negInt n => .int n.toInt
  | .float bits => .float bits
  | .float32 bits => .float (Float32.ofBits bits).toFloat.toBits

def isKey (k : PyStr) : PyObj → Bool
  | .str k' => k' = k
  | _ => false

def setItem (k : PyStr) (o : PyObj) : List (PyObj × PyObj) → List (PyObj × PyObj)
  | [] => [(.str k, o)]
  | (k', o') :: entries => if isKey k k' then (k', o) :: entries else (k', o') :: setItem k o entries

mutual

def jsonToPy : Json → PyObj
  | .null => .none
  | .bool b => .bool b
  | .number n => numberToPy n
  | .string s => .str (.ofString s)
  | .array vs => .list (jsonsToPy vs)
  | .object fields => .dict (fieldsToPy [] fields)

def jsonsToPy : List Json → List PyObj
  | [] => []
  | v :: vs => jsonToPy v :: jsonsToPy vs

/-- The loop over the fields of an object, with the `dict` so far. -/
def fieldsToPy (dict : List (PyObj × PyObj)) : List (String × Json) → List (PyObj × PyObj)
  | [] => dict
  | (k, v) :: fields => fieldsToPy (setItem (.ofString k) (jsonToPy v) dict) fields

end

/-! ## Values -/

/-- The numbers of a `serde_json::Value`. -/
def IsNumber : Number → Prop
  | .posInt _ => True
  | .negInt n => n.toInt < 0
  | .float bits => isFinite bits
  | .float32 _ => False

mutual

/-- The documents that a `serde_json::Value` can hold. -/
def IsValue : Json → Prop
  | .null => True
  | .bool _ => True
  | .number n => IsNumber n
  | .string _ => True
  | .array vs => AreValues vs
  | .object fields => (fields.map (·.1)).Pairwise (· < ·) ∧ AreFields fields

def AreValues : List Json → Prop
  | [] => True
  | v :: vs => IsValue v ∧ AreValues vs

def AreFields : List (String × Json) → Prop
  | [] => True
  | (_, v) :: fields => IsValue v ∧ AreFields fields

end

theorem areFields_iff {fields : List (String × Json)} : AreFields fields ↔ ∀ f ∈ fields, IsValue f.2 := by
  induction fields with
  | nil => simp [AreFields]
  | cons f fields ih => simp [AreFields, ih]

/-! ## From JSON to Python and back -/

theorem numberFromInt_posInt (n : UInt64) : numberFromInt n.toNat = .ok (.posInt n) := by
  have hn := n.toNat_lt
  unfold numberFromInt
  split
  · simp
  · rw [if_pos (by omega)]
    simp

theorem numberFromInt_negInt {n : Int64} (h : n.toInt < 0) : numberFromInt n.toInt = .ok (.negInt n) := by
  have hle := n.le_toInt
  unfold numberFromInt
  rw [if_pos (by omega), if_pos h]
  simp

theorem jsonFromPy_number {n : Number} (h : IsNumber n) : jsonFromPy (numberToPy n) = .ok (.number n) := by
  cases n with
  | posInt n => simp [numberToPy, jsonFromPy, numberFromInt_posInt]
  | negInt n => simp [numberToPy, jsonFromPy, numberFromInt_negInt h]
  | float bits => simp [numberToPy, jsonFromPy, show isFinite bits = true from h]
  | float32 bits => exact h.elim

theorem isKey_iff {k : PyStr} {o : PyObj} : isKey k o ↔ o = .str k := by
  cases o <;> simp [isKey]

theorem setItem_new {k : PyStr} {o : PyObj} {dict : List (PyObj × PyObj)} (h : .str k ∉ dict.map (·.1)) :
    setItem k o dict = dict ++ [(.str k, o)] := by
  induction dict with
  | nil => rfl
  | cons e dict ih =>
      simp only [List.map_cons, List.mem_cons, not_or] at h
      have hkey : ¬ isKey k e.1 := fun hk => h.1 (isKey_iff.mp hk).symm
      simp [setItem, hkey, ih h.2]

/-- A field as an entry of a `dict`. -/
def entryToPy (f : String × Json) : PyObj × PyObj := (.str (.ofString f.1), jsonToPy f.2)

/-- The entries of a `dict` that is made from an object are its fields in order. -/
theorem fieldsToPy_eq {fields : List (String × Json)} {dict : List (PyObj × PyObj)}
    (h : (dict.map (·.1) ++ fields.map fun f => (entryToPy f).1).Nodup) :
    fieldsToPy dict fields = dict ++ fields.map entryToPy := by
  induction fields generalizing dict with
  | nil => simp [fieldsToPy]
  | cons f fields ih =>
      have hnew : .str (.ofString f.1) ∉ dict.map (·.1) := by
        intro hmem
        exact (List.nodup_append.mp h).2.2 _ hmem _ List.mem_cons_self rfl
      rw [fieldsToPy, setItem_new hnew, ih (by simpa [entryToPy] using h)]
      simp [entryToPy]

theorem nodup_entryKeys {fields : List (String × Json)} (h : (fields.map (·.1)).Pairwise (· < ·)) :
    (fields.map fun f => (entryToPy f).1).Nodup := by
  have hkeys : (fields.map fun f => (entryToPy f).1) = (fields.map (·.1)).map fun k => .str (.ofString k) := by
    simp [entryToPy]
  rw [hkeys]
  refine List.Nodup.map (fun a b hab => ofString_injective (PyObj.str.inj hab)) (h.imp fun hlt => ne_of_lt hlt)

theorem jsonToPy_object {fields : List (String × Json)} (h : (fields.map (·.1)).Pairwise (· < ·)) :
    jsonToPy (.object fields) = .dict (fields.map entryToPy) := by
  rw [jsonToPy, fieldsToPy_eq (by simpa using nodup_entryKeys h), List.nil_append]

theorem insertField_last {k : String} {v : Json} {map : List (String × Json)} (h : ∀ f ∈ map, f.1 < k) :
    insertField k v map = map ++ [(k, v)] := by
  induction map with
  | nil => rfl
  | cons f map ih =>
      have hlt := h f List.mem_cons_self
      have hrest := ih fun f hf => h f (List.mem_cons_of_mem _ hf)
      simp [insertField, lt_asymm hlt, ne_of_gt hlt, hrest]

mutual

theorem jsonFromPy_jsonToPy : ∀ {v : Json}, IsValue v → jsonFromPy (jsonToPy v) = .ok v
  | .null, _ => rfl
  | .bool _, _ => rfl
  | .number _, h => jsonFromPy_number h
  | .string s, _ => by simp [jsonToPy, jsonFromPy]
  | .array vs, h => by simp [jsonToPy, jsonFromPy, jsonsFromPy_jsonsToPy h]
  | .object fields, h => by simp [jsonToPy_object h.1, jsonFromPy, @fieldsFromPy_entries fields [] h.2 (by simpa using h.1)]

theorem jsonsFromPy_jsonsToPy : ∀ {vs : List Json}, AreValues vs → jsonsFromPy (jsonsToPy vs) = .ok vs
  | [], _ => rfl
  | v :: vs, h => by simp [jsonsToPy, jsonsFromPy, jsonFromPy_jsonToPy h.1, jsonsFromPy_jsonsToPy h.2, bind,
      Except.bind, pure, Except.pure]

theorem fieldsFromPy_entries : ∀ {fields : List (String × Json)} {map : List (String × Json)}, AreFields fields →
    ((map ++ fields).map (·.1)).Pairwise (· < ·) → fieldsFromPy map (fields.map entryToPy) = .ok (map ++ fields)
  | [], map, _, _ => by simp [fieldsFromPy]
  | (k, v) :: fields, map, h, hsorted => by
      have hlast : ∀ f ∈ map, f.1 < k := fun f hf => by
        rw [List.map_append, List.pairwise_append] at hsorted
        exact hsorted.2.2 _ (List.mem_map_of_mem hf) _ (by simp)
      have hrest := @fieldsFromPy_entries fields (map ++ [(k, v)]) h.2 (by simpa using hsorted)
      simp [entryToPy, fieldsFromPy, keyFromPy, jsonFromPy_jsonToPy h.1, insertField_last hlast, hrest, bind, Except.bind]

end

/-! ## What is accepted -/

mutual

/-- The objects that JSON can carry. -/
def Jsonable : PyObj → Prop
  | .none => True
  | .bool _ => True
  | .int n => -2 ^ 63 ≤ n ∧ n < 2 ^ 64
  | .float bits => isFinite bits
  | .str s => ∃ t, s = .ofString t
  | .list items => AreJsonable items
  | .tuple items => AreJsonable items
  | .dict entries => HoldJsonable entries
  | _ => False

def AreJsonable : List PyObj → Prop
  | [] => True
  | o :: items => Jsonable o ∧ AreJsonable items

def HoldJsonable : List (PyObj × PyObj) → Prop
  | [] => True
  | (k, o) :: entries => (∃ t, k = .str (.ofString t)) ∧ Jsonable o ∧ HoldJsonable entries

end

theorem numberFromInt_ok {n : Int} : (∃ x, numberFromInt n = .ok x) ↔ -2 ^ 63 ≤ n ∧ n < 2 ^ 64 := by
  unfold numberFromInt
  split
  · simp
    omega
  · split
    · simp
      omega
    · simp
      omega

theorem keyFromPy_eq_ok {o : PyObj} {k : String} : keyFromPy o = .ok k ↔ o = .str (.ofString k) := by
  cases o <;> simp [keyFromPy, toStr_eq_ok]

mutual

theorem jsonFromPy_ok_iff : ∀ {o : PyObj}, (∃ v, jsonFromPy o = .ok v) ↔ Jsonable o
  | .none => by simp [jsonFromPy, Jsonable]
  | .bool _ => by simp [jsonFromPy, Jsonable]
  | .int n => by simpa [jsonFromPy, Jsonable, map_eq_ok] using numberFromInt_ok (n := n)
  | .float bits => by
      simp only [jsonFromPy, Jsonable]
      split <;> simp [*]
  | .str s => by simp [jsonFromPy, Jsonable, map_eq_ok, toStr_eq_ok]
  | .list items => by simpa [jsonFromPy, Jsonable, map_eq_ok] using @jsonsFromPy_ok_iff items
  | .tuple items => by simpa [jsonFromPy, Jsonable, map_eq_ok] using @jsonsFromPy_ok_iff items
  | .dict entries => by
      simpa [jsonFromPy, Jsonable, map_eq_ok] using @fieldsFromPy_ok_iff entries []
  | .blankNode _ => by simp [jsonFromPy, Jsonable]
  | .literal _ => by simp [jsonFromPy, Jsonable]
  | .itemId _ => by simp [jsonFromPy, Jsonable]
  | .scope _ => by simp [jsonFromPy, Jsonable]
  | .provenance _ => by simp [jsonFromPy, Jsonable]
  | .iterable _ _ => by simp [jsonFromPy, Jsonable]
  | .other _ => by simp [jsonFromPy, Jsonable]

theorem jsonsFromPy_ok_iff : ∀ {items : List PyObj}, (∃ vs, jsonsFromPy items = .ok vs) ↔ AreJsonable items
  | [] => by simp [jsonsFromPy, AreJsonable]
  | o :: items => by
      rw [AreJsonable, ← jsonFromPy_ok_iff, ← jsonsFromPy_ok_iff]
      simp [jsonsFromPy, bind_eq_ok, map_eq_ok]

theorem fieldsFromPy_ok_iff : ∀ {entries : List (PyObj × PyObj)} {map : List (String × Json)},
    (∃ m, fieldsFromPy map entries = .ok m) ↔ HoldJsonable entries
  | [], map => by simp [fieldsFromPy, HoldJsonable]
  | (k, o) :: entries, map => by
      rw [HoldJsonable, ← jsonFromPy_ok_iff]
      simp only [fieldsFromPy, bind_eq_ok, keyFromPy_eq_ok]
      constructor
      · rintro ⟨m, t, hk, v, hv, hm⟩
        exact ⟨⟨t, hk⟩, ⟨v, hv⟩, fieldsFromPy_ok_iff.mp ⟨m, hm⟩⟩
      · rintro ⟨⟨t, hk⟩, ⟨v, hv⟩, hrest⟩
        obtain ⟨m, hm⟩ := fieldsFromPy_ok_iff.mpr hrest
        exact ⟨m, t, hk, v, hv, hm⟩

end

/-! ## From Python to JSON and back -/

theorem isNumber_numberFromInt {n : Int} {x : Number} (h : numberFromInt n = .ok x) : IsNumber x ∧ numberToPy x = .int n := by
  unfold numberFromInt at h
  split at h
  · cases h
    split
    · have hn : (Int64.ofInt n).toInt = n := Int64.toInt_ofInt_of_le (by omega) (by omega)
      exact ⟨by rw [IsNumber, hn]; assumption, by rw [numberToPy, hn]⟩
    · exact ⟨trivial, by simp [numberToPy]; omega⟩
  · split at h
    · cases h
      exact ⟨trivial, by simp [numberToPy]; omega⟩
    · cases h

theorem mem_insertField {k : String} {v : Json} {map : List (String × Json)} {f : String × Json}
    (h : f ∈ insertField k v map) : f = (k, v) ∨ f ∈ map := by
  induction map with
  | nil => simpa [insertField] using h
  | cons g map ih =>
      unfold insertField at h
      split at h
      · simpa using h
      · split at h
        · exact (List.mem_cons.mp h).imp_right (List.mem_cons_of_mem _)
        · rcases List.mem_cons.mp h with rfl | h
          · exact Or.inr List.mem_cons_self
          · exact (ih h).imp_right (List.mem_cons_of_mem _)

theorem sorted_insertField {k : String} {v : Json} {map : List (String × Json)}
    (h : (map.map (·.1)).Pairwise (· < ·)) : ((insertField k v map).map (·.1)).Pairwise (· < ·) := by
  induction map with
  | nil => simp [insertField]
  | cons g map ih =>
      obtain ⟨hfirst, hrest⟩ := List.pairwise_cons.mp h
      unfold insertField
      split
      · rename_i hlt
        refine List.pairwise_cons.mpr ⟨fun k' hk' => ?_, h⟩
        rcases List.mem_cons.mp hk' with rfl | hk'
        · exact hlt
        · exact lt_trans hlt (hfirst k' hk')
      · split
        · subst_vars
          exact h
        · rename_i hlt hne
          refine List.pairwise_cons.mpr ⟨fun k' hk' => ?_, ih hrest⟩
          obtain ⟨f, hf, rfl⟩ := List.mem_map.mp hk'
          rcases mem_insertField hf with rfl | hf
          · exact lt_of_le_of_ne (not_lt.mp hlt) (Ne.symm hne)
          · exact hfirst _ (List.mem_map_of_mem hf)

theorem insertField_perm {k : String} {v : Json} {map : List (String × Json)} (h : k ∉ map.map (·.1)) :
    (insertField k v map).Perm ((k, v) :: map) := by
  induction map with
  | nil => exact .refl _
  | cons g map ih =>
      simp only [List.map_cons, List.mem_cons, not_or] at h
      unfold insertField
      split
      · exact .refl _
      · rw [if_neg h.1]
        exact ((ih h.2).cons _).trans (.swap _ _ _)

mutual

theorem isValue_of_jsonFromPy : ∀ {o : PyObj} {v : Json}, jsonFromPy o = .ok v → IsValue v
  | .none, v, h => by cases h; trivial
  | .bool _, v, h => by cases h; trivial
  | .int n, v, h => by
      obtain ⟨x, hx, rfl⟩ := map_eq_ok.mp h
      exact (isNumber_numberFromInt hx).1
  | .float bits, v, h => by
      simp only [jsonFromPy] at h
      split at h
      · cases h
        assumption
      · cases h
  | .str s, v, h => by
      obtain ⟨t, -, rfl⟩ := map_eq_ok.mp h
      trivial
  | .list items, v, h => by
      obtain ⟨vs, hvs, rfl⟩ := map_eq_ok.mp h
      exact areValues_of_jsonsFromPy hvs
  | .tuple items, v, h => by
      obtain ⟨vs, hvs, rfl⟩ := map_eq_ok.mp h
      exact areValues_of_jsonsFromPy hvs
  | .dict entries, v, h => by
      obtain ⟨m, hm, rfl⟩ := map_eq_ok.mp h
      exact areFields_of_fieldsFromPy hm .nil trivial
  | .blankNode _, v, h => by cases h
  | .literal _, v, h => by cases h
  | .itemId _, v, h => by cases h
  | .scope _, v, h => by cases h
  | .provenance _, v, h => by cases h
  | .iterable _ _, v, h => by cases h
  | .other _, v, h => by cases h

theorem areValues_of_jsonsFromPy : ∀ {items : List PyObj} {vs : List Json}, jsonsFromPy items = .ok vs → AreValues vs
  | [], vs, h => by cases h; trivial
  | o :: items, vs, h => by
      simp only [jsonsFromPy, bind_eq_ok] at h
      obtain ⟨v, hv, vs', hvs, h⟩ := h
      cases h
      exact ⟨isValue_of_jsonFromPy hv, areValues_of_jsonsFromPy hvs⟩

theorem areFields_of_fieldsFromPy : ∀ {entries : List (PyObj × PyObj)} {map m : List (String × Json)},
    fieldsFromPy map entries = .ok m → (map.map (·.1)).Pairwise (· < ·) → AreFields map →
      (m.map (·.1)).Pairwise (· < ·) ∧ AreFields m
  | [], map, m, h, hsorted, hmap => by cases h; exact ⟨hsorted, hmap⟩
  | (k, o) :: entries, map, m, h, hsorted, hmap => by
      simp only [fieldsFromPy, bind_eq_ok] at h
      obtain ⟨k, -, v, hv, h⟩ := h
      refine areFields_of_fieldsFromPy h (sorted_insertField hsorted) (areFields_iff.mpr fun f hf => ?_)
      rcases mem_insertField hf with rfl | hf
      · exact isValue_of_jsonFromPy hv
      · exact areFields_iff.mp hmap f hf

end

/-- The second object is the first one with lists for tuples and the entries of dicts in another order. -/
inductive Mirrors : PyObj → PyObj → Prop
  | none : Mirrors .none .none
  | bool {b : Bool} : Mirrors (.bool b) (.bool b)
  | int {n : Int} : Mirrors (.int n) (.int n)
  | float {bits : UInt64} : Mirrors (.float bits) (.float bits)
  | str {s : PyStr} : Mirrors (.str s) (.str s)
  | list {items items' : List PyObj} (h : List.Forall₂ Mirrors items items') : Mirrors (.list items) (.list items')
  | tuple {items items' : List PyObj} (h : List.Forall₂ Mirrors items items') : Mirrors (.tuple items) (.list items')
  | dict {entries es es' : List (PyObj × PyObj)} (hperm : entries.Perm es) (hkeys : es.map (·.1) = es'.map (·.1))
      (h : List.Forall₂ Mirrors (es.map (·.2)) (es'.map (·.2))) : Mirrors (.dict entries) (.dict es')

mutual

/-- The keys of each `dict` are distinct. -/
def DistinctKeys : PyObj → Prop
  | .list items => AreDistinctKeys items
  | .tuple items => AreDistinctKeys items
  | .dict entries => (entries.map (·.1)).Nodup ∧ HoldDistinctKeys entries
  | _ => True

def AreDistinctKeys : List PyObj → Prop
  | [] => True
  | o :: items => DistinctKeys o ∧ AreDistinctKeys items

def HoldDistinctKeys : List (PyObj × PyObj) → Prop
  | [] => True
  | (_, o) :: entries => DistinctKeys o ∧ HoldDistinctKeys entries

end

mutual

theorem mirrors_of_jsonFromPy : ∀ {o : PyObj} {v : Json}, jsonFromPy o = .ok v → DistinctKeys o → Mirrors o (jsonToPy v)
  | .none, v, h, _ => by cases h; exact .none
  | .bool _, v, h, _ => by cases h; exact .bool
  | .int n, v, h, _ => by
      obtain ⟨x, hx, rfl⟩ := map_eq_ok.mp h
      rw [jsonToPy, (isNumber_numberFromInt hx).2]
      exact .int
  | .float bits, v, h, _ => by
      simp only [jsonFromPy] at h
      split at h
      · cases h
        exact .float
      · cases h
  | .str s, v, h, _ => by
      obtain ⟨t, ht, rfl⟩ := map_eq_ok.mp h
      rw [toStr_eq_ok.mp ht]
      exact .str
  | .list items, v, h, hdistinct => by
      obtain ⟨vs, hvs, rfl⟩ := map_eq_ok.mp h
      exact .list (mirrors_of_jsonsFromPy hvs hdistinct)
  | .tuple items, v, h, hdistinct => by
      obtain ⟨vs, hvs, rfl⟩ := map_eq_ok.mp h
      exact .tuple (mirrors_of_jsonsFromPy hvs hdistinct)
  | .dict entries, v, h, hdistinct => by
      obtain ⟨m, hm, rfl⟩ := map_eq_ok.mp h
      obtain ⟨fs, hperm, hfs⟩ := mirrors_of_fieldsFromPy hm (by simpa using hdistinct.1) hdistinct.2
      obtain ⟨es, hall, hes⟩ := List.perm_comp_forall₂ (by simpa using hperm) hfs.flip
      rw [jsonToPy_object (areFields_of_fieldsFromPy hm .nil trivial).1]
      refine .dict hes.symm ?_ ?_
      · rw [← List.forall₂_eq_eq_eq, List.forall₂_map_left_iff, List.forall₂_map_right_iff, List.forall₂_map_right_iff]
        exact hall.flip.imp fun _ _ h => h.1
      · rw [List.forall₂_map_left_iff, List.forall₂_map_right_iff, List.forall₂_map_right_iff]
        exact hall.flip.imp fun _ _ h => h.2
  | .blankNode _, v, h, _ => by cases h
  | .literal _, v, h, _ => by cases h
  | .itemId _, v, h, _ => by cases h
  | .scope _, v, h, _ => by cases h
  | .provenance _, v, h, _ => by cases h
  | .iterable _ _, v, h, _ => by cases h
  | .other _, v, h, _ => by cases h

theorem mirrors_of_jsonsFromPy : ∀ {items : List PyObj} {vs : List Json}, jsonsFromPy items = .ok vs →
    AreDistinctKeys items → List.Forall₂ Mirrors items (jsonsToPy vs)
  | [], vs, h, _ => by cases h; exact .nil
  | o :: items, vs, h, hdistinct => by
      simp only [jsonsFromPy, bind_eq_ok] at h
      obtain ⟨v, hv, vs', hvs, h⟩ := h
      cases h
      exact .cons (mirrors_of_jsonFromPy hv hdistinct.1) (mirrors_of_jsonsFromPy hvs hdistinct.2)

/-- The map in the end has the fields it had before and one for each entry. -/
theorem mirrors_of_fieldsFromPy : ∀ {entries : List (PyObj × PyObj)} {map m : List (String × Json)},
    fieldsFromPy map entries = .ok m → ((map.map fun f => (entryToPy f).1) ++ entries.map (·.1)).Nodup →
    HoldDistinctKeys entries → ∃ fs, m.Perm (map ++ fs) ∧
      List.Forall₂ (fun e f => e.1 = (entryToPy f).1 ∧ Mirrors e.2 (entryToPy f).2) entries fs
  | [], map, m, h, _, _ => by cases h; exact ⟨[], by simp, .nil⟩
  | (k, o) :: entries, map, m, h, hnodup, hdistinct => by
      simp only [fieldsFromPy, bind_eq_ok, keyFromPy_eq_ok] at h
      obtain ⟨t, rfl, v, hv, h⟩ := h
      have hnew : t ∉ map.map (·.1) := fun ht => by
        obtain ⟨f, hf, rfl⟩ := List.mem_map.mp ht
        exact (List.nodup_append.mp hnodup).2.2 _ (List.mem_map_of_mem hf) _ List.mem_cons_self rfl
      have hperm := insertField_perm (v := v) hnew
      have hkeys : ((insertField t v map).map fun f => (entryToPy f).1).Perm
          (.str (.ofString t) :: map.map fun f => (entryToPy f).1) := hperm.map _
      obtain ⟨fs, hm, hfs⟩ := mirrors_of_fieldsFromPy h
        ((hkeys.append_right _).nodup_iff.mpr ((List.perm_middle.nodup_iff).mp hnodup)) hdistinct.2
      refine ⟨(t, v) :: fs, hm.trans ((hperm.append_right fs).trans List.perm_middle.symm), .cons ⟨rfl, ?_⟩ hfs⟩
      exact mirrors_of_jsonFromPy hv hdistinct.1

end

/-- JSON survives the way to Python and back. A Python object is accepted exactly if JSON can carry it, and then comes back
as it was, but with lists for tuples and sorted dicts. -/
theorem event_bodies_round_trip {v : Json} (hv : IsValue v) {o : PyObj} (ho : DistinctKeys o) :
    jsonFromPy (jsonToPy v) = .ok v ∧ ((∃ w, jsonFromPy o = .ok w) ↔ Jsonable o) ∧
      ∀ w, jsonFromPy o = .ok w → IsValue w ∧ Mirrors o (jsonToPy w) :=
  ⟨jsonFromPy_jsonToPy hv, jsonFromPy_ok_iff, fun _ hw => ⟨isValue_of_jsonFromPy hw, mirrors_of_jsonFromPy hw ho⟩⟩

/-- The keys are sorted in JSON only, the tuple comes back as a list. -/
theorem event_bodies_round_trip_nested :
    let v : Json := .object [("a", .array [.number (.posInt 1), .null]), ("b", .bool true)]
    let o : PyObj := .dict [(.str (.ofString "b"), .bool true), (.str (.ofString "a"), .tuple [.int 1, .none])]
    jsonFromPy o = .ok v ∧ IsValue v ∧ Mirrors o (jsonToPy v) := by
  intro v o
  have hv : IsValue v := ⟨by decide, by simp [IsValue, AreFields, AreValues, IsNumber]⟩
  have ho : DistinctKeys o := by simp [o, DistinctKeys, HoldDistinctKeys, AreDistinctKeys, ofString_injective.eq_iff]
  have hread : jsonFromPy o = .ok v := rfl
  exact ⟨hread, (event_bodies_round_trip hv ho).2.2 v hread⟩

end Semanticore.Python
