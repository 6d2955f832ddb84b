import Semanticore.Context.Run

/-!
# Crashes and reopening

A crash leaves the stores as the commits issued so far left them, and no index. Opening builds a new index from the
stores. All three stores are persistent here.
-/

namespace Semanticore.Context
open Semanticore.Core

/-! ## Crashes -/

/-- The commits among marks, in order. -/
def commits (marks : List Mark) : List (ContextScope × Store) :=
  marks.filterMap fun
    | .commit scope after => some (scope, after)
    | .selected .. => none
    | .moved .. => none
    | .dropped _ => none

def replay (stores : Tiers Store) (cs : List (ContextScope × Store)) : Tiers Store :=
  cs.foldl (fun stores c => stores.set c.1 c.2) stores

namespace World

variable (P : Platform) (cfg : Settings)

/-- The world a crash leaves when it strikes after `k` commits of an operation. The index is lost with the process. -/
def crash (w : World) (ev : Event) (k : Nat) : World :=
  let w' := w.step P cfg ev
  { w' with session := { state := .empty, log := [],
                         stores := replay w.session.stores ((commits w'.session.log).take k) } }

/-! ## Reopening -/

/-- What closing leaves: the stores. The index goes with the Session. -/
def close (w : World) : World :=
  { w with session := { w.session with state := .empty, log := [] } }

@[simp] theorem close_stores (w : World) : w.close.session.stores = w.session.stores := rfl

/-- `Session::open` on the stores of the world. -/
def reopen (w : World) (fates : List Fate) (elapsed : List Duration) : Except Halt Unit × World :=
  (openSession P (.const true)).run.run { w.close with fates, elapsed }

end World

/-- What can happen to three stores and the Sessions opened on them, one after the other, from a world on: calls,
crashes in the middle of a call, and closing, each followed by an `open` that succeeds. The list holds what the calls
were given to add. -/
inductive Life (P : Platform) (w : World) : List (ItemId × ContextItem) → World → Prop
  | here : Life P w [] w
  | call {L : List (ItemId × ContextItem)} {w₁ : World} (cfg : Settings) (ev : Event) (h : Life P w L w₁) :
      Life P w (L ++ w₁.issuedBy P cfg ev) (w₁.step P cfg ev)
  | crash {L : List (ItemId × ContextItem)} {w₁ w₂ : World} (cfg : Settings) (ev : Event) (k : Nat)
      (fates : List Fate) (elapsed : List Duration) (h : Life P w L w₁)
      (hopen : (w₁.crash P cfg ev k).reopen P fates elapsed = (.ok (), w₂)) :
      Life P w (L ++ w₁.issuedBy P cfg ev) w₂
  | close {L : List (ItemId × ContextItem)} {w₁ w₂ : World} (fates : List Fate) (elapsed : List Duration)
      (h : Life P w L w₁) (hopen : w₁.reopen P fates elapsed = (.ok (), w₂)) : Life P w L w₂

/-- Between operations there are three stores without a Session, or a Session on them. -/
inductive Stage
  | closed (stores : Tiers Store)
  | live (w : World)

/-- What can happen to three empty stores and the Sessions opened on them, one after the other: calls, a close after a
call or a crash in the middle of one, and between two Sessions the loss of what a tier had in memory. An `open` that
fails leaves the stores as they are. -/
inductive History (P : Platform) : Stage → Prop
  | start : History P (.closed (.const .empty))
  | opened {w w' : World} (persistent : Tiers Bool) (h : History P (.closed w.session.stores))
      (hopen : (openSession P persistent).run.run w = (.ok (), w')) : History P (.live w')
  | called {w : World} (cfg : Settings) (ev : Event) (h : History P (.live w)) : History P (.live (w.step P cfg ev))
  | closed {w : World} (h : History P (.live w)) : History P (.closed w.session.stores)
  | crashed {w : World} (cfg : Settings) (ev : Event) (k : Nat) (h : History P (.live w)) :
      History P (.closed (w.crash P cfg ev k).session.stores)
  | lost {stores : Tiers Store} (scope : ContextScope) (h : History P (.closed stores)) :
      History P (.closed (stores.set scope .empty))

end Semanticore.Context
