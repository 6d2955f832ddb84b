import Semanticore.Core.Model

/-!
# Scopes, item handles and the unit of content

`semanticore-context/src/item.rs`.
-/

namespace Semanticore.Context
open Semanticore.Core

/-! ## Scopes -/

inductive ContextScope
  | minor
  | major
  | enduring
deriving DecidableEq, Repr

namespace ContextScope

/-- Scopes are ordered by durability: minor < major < enduring. -/
def rank : ContextScope → Nat
  | .minor => 0
  | .major => 1
  | .enduring => 2

theorem rank_injective : Function.Injective rank := by
  intro a b h
  cases a <;> cases b <;> first | rfl | cases h

instance : LinearOrder ContextScope := LinearOrder.lift' rank rank_injective

/-- `ContextScope::ALL`, most durable first. -/
def all : List ContextScope := [.enduring, .major, .minor]

def colder : ContextScope → Option ContextScope
  | .enduring => some .major
  | .major => some .minor
  | .minor => none

def tag : ContextScope → String
  | .enduring => "enduring"
  | .major => "major"
  | .minor => "minor"

def fromTag (tag : String) : Option ContextScope := all.find? (·.tag = tag)

@[simp] theorem mem_all (s : ContextScope) : s ∈ all := by cases s <;> decide

@[simp] theorem fromTag_tag (s : ContextScope) : fromTag s.tag = some s := by cases s <;> decide

theorem colder_lt {s c : ContextScope} (h : s.colder = some c) : c < s := by
  cases s <;> cases h <;> decide

/-- Nothing lies between a scope and the next colder one. -/
theorem le_of_lt_of_colder {s c t : ContextScope} (h : s.colder = some c) (ht : t < s) : t ≤ c := by
  cases s <;> cases h <;> cases t <;> revert ht <;> decide

theorem eq_of_le_last {s t : ContextScope} (h : s.colder = none) (ht : t ≤ s) : t = s := by
  cases s <;> cases h
  cases t <;> revert ht <;> decide

/-- Induction along `colder`. -/
@[elab_as_elim] theorem colder_induction {motive : ContextScope → Prop}
    (last : ∀ s, s.colder = none → motive s) (next : ∀ s c, s.colder = some c → motive c → motive s)
    (s : ContextScope) : motive s := by
  have hminor : motive .minor := last _ rfl
  have hmajor : motive .major := next _ _ rfl hminor
  cases s with
  | minor => exact hminor
  | major => exact hmajor
  | enduring => exact next _ _ rfl hmajor

/-- The scope and every colder one, in the order in which `enforce_bounds` visits them. -/
def andColder : ContextScope → List ContextScope
  | .enduring => [.enduring, .major, .minor]
  | .major => [.major, .minor]
  | .minor => [.minor]

/-! `andColder` follows `colder` until there is none. -/

theorem andColder_of_some {s c : ContextScope} (h : s.colder = some c) : s.andColder = s :: c.andColder := by
  cases s <;> cases h <;> rfl

theorem andColder_of_none {s : ContextScope} (h : s.colder = none) : s.andColder = [s] := by
  cases s <;> first | rfl | cases h

@[simp] theorem mem_andColder {s t : ContextScope} : t ∈ s.andColder ↔ t ≤ s := by
  cases s <;> cases t <;> decide

theorem andColder_nodup (s : ContextScope) : s.andColder.Nodup := by cases s <;> decide

end ContextScope

/-! ## Item handles -/

/-- `ItemId(u64)`. -/
structure ItemId where
  n : UInt64
deriving DecidableEq, Repr

namespace ItemId

theorem toNat_injective : Function.Injective (fun id : ItemId => id.n.toNat) := by
  intro a b h
  cases a; cases b
  simpa [UInt64.toNat_inj] using h

instance : LinearOrder ItemId := LinearOrder.lift' (fun id : ItemId => id.n.toNat) toNat_injective

instance : Std.LawfulEqOrd ItemId := ⟨compare_eq_iff_eq.mp⟩

theorem lt_iff_toNat {a b : ItemId} : a < b ↔ a.n.toNat < b.n.toNat := Iff.rfl

def display (id : ItemId) : String := "item:" ++ toString id.n.toNat

end ItemId

/-! ## JSON values -/

/-- A number as its Rust type holds it: `u64`, `i64`, or the bits of an `f64` or `f32`. -/
inductive Number
  | posInt (n : UInt64)
  | negInt (n : Int64)
  | float (bits : UInt64)
  | float32 (bits : UInt32)
deriving DecidableEq, Repr

/-- A JSON document. -/
inductive Json
  | null
  | bool (b : Bool)
  | number (n : Number)
  | string (s : String)
  | array (xs : List Json)
  | object (fields : List (String × Json))

mutual

/-- How many arrays and objects are nested inside one another; a scalar has depth 0. -/
def Json.depth : Json → Nat
  | .null => 0
  | .bool _ => 0
  | .number _ => 0
  | .string _ => 0
  | .array xs => 1 + Json.depthList xs
  | .object fields => 1 + Json.depthFields fields

def Json.depthList : List Json → Nat
  | [] => 0
  | x :: xs => max x.depth (Json.depthList xs)

def Json.depthFields : List (String × Json) → Nat
  | [] => 0
  | (_, x) :: fields => max x.depth (Json.depthFields fields)

end

/-! ## Items -/

structure Provenance where
  source : String
  derivedFrom : List ItemId
deriving DecidableEq, Repr

inductive ContextPayload
  | triples (quads : List Quad)
  | event (kind : String) (body : Json)
  | chunk (content : String) (contentType : String)

/-- An `f32`, by its bits. -/
structure F32 where
  bits : UInt32
deriving DecidableEq, Repr

/-- `f32::is_finite`: the exponent is not all ones. -/
def F32.isFinite (x : F32) : Bool := (x.bits >>> 23) &&& 0xFF != 0xFF

structure ContextItem where
  payload : ContextPayload
  provenance : Provenance
  scopeHint : Option ContextScope
  embedding : Option (List F32)

/-- The triples an item stores; empty unless the payload is `Triples`. -/
def ContextPayload.quads : ContextPayload → List Quad
  | .triples quads => quads
  | .event _ _ => []
  | .chunk _ _ => []

end Semanticore.Context
