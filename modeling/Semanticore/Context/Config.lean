import Semanticore.Context.Item

/-!
# Session settings

`semanticore-context/src/config.rs`, less the parts nothing reads at v0.1 (reasoner selection and persistence
target). Instants and durations are counted in nanoseconds.
-/

namespace Semanticore.Context

abbrev Instant := Nat

abbrev Duration := Nat

/-- One value per scope. -/
structure Tiers (α : Type) where
  enduring : α
  major : α
  minor : α

namespace Tiers

variable {α : Type}

def get (t : Tiers α) : ContextScope → α
  | .enduring => t.enduring
  | .major => t.major
  | .minor => t.minor

def set (t : Tiers α) (scope : ContextScope) (a : α) : Tiers α :=
  match scope with
  | .enduring => { t with enduring := a }
  | .major => { t with major := a }
  | .minor => { t with minor := a }

def const (a : α) : Tiers α := ⟨a, a, a⟩

@[simp] theorem get_const (a : α) (s : ContextScope) : (const a).get s = a := by cases s <;> rfl

theorem get_set (t : Tiers α) (s s' : ContextScope) (a : α) :
    (t.set s a).get s' = if s = s' then a else t.get s' := by
  cases s <;> cases s' <;> rfl

@[simp] theorem get_set_self (t : Tiers α) (s : ContextScope) (a : α) : (t.set s a).get s = a := by
  simp [get_set]

end Tiers

structure ScopeBounds where
  enduringMaxItems : Option Nat
  majorMaxItems : Option Nat
  minorMaxItems : Option Nat
deriving DecidableEq, Repr

def ScopeBounds.get (b : ScopeBounds) : ContextScope → Option Nat
  | .enduring => b.enduringMaxItems
  | .major => b.majorMaxItems
  | .minor => b.minorMaxItems

inductive EvictionPolicy
  | lru
  | lfu
  | recencyWeighted (halfLife : Duration)
deriving DecidableEq, Repr

inductive DemotionTarget
  | drop
  | nextColder
  | oneStepThenDrop
deriving DecidableEq, Repr

inductive PromotionCadence
  | afterEachQuery
  | never
deriving DecidableEq, Repr

structure PromotionConfig where
  cadence : PromotionCadence
  minorToMajorAccesses : Nat
  minorWindow : Duration
  majorToEnduringReferences : Nat
deriving DecidableEq, Repr

/-- `PromotionConfig::default`. -/
def PromotionConfig.default : PromotionConfig :=
  { cadence := .afterEachQuery, minorToMajorAccesses := 3, minorWindow := 60 * 10 ^ 9,
    majorToEnduringReferences := 5 }

/-- The part of `SessionConfig` a Session keeps. -/
structure Settings where
  bounds : ScopeBounds
  evictionPolicy : EvictionPolicy
  demotionTarget : DemotionTarget
  promotion : PromotionConfig
deriving DecidableEq, Repr

inductive EvictionCriteria
  | items (ids : List ItemId)
  | demote (items : List ItemId) (target : ContextScope)
  | policy (count : Nat)
deriving DecidableEq, Repr

end Semanticore.Context
