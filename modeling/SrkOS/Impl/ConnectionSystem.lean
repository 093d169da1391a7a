import SrkOS.Framework.System
import SrkOS.Impl.Connection
import Mathlib.Logic.Function.Basic

/-!
# Connection handlers

Any number of handlers `η`, each of which calls `try_acquire` and, if it gets a
guard, drops it later. `fetch_update` loads the counter, applies its closure to
what it has read, and tries to exchange the result for it with
`compare_exchange_weak`; when that fails, which it may do even though the counter
is as read, it goes on with the counter's new value.
-/

namespace SrkOS.Impl.Connection

open Framework

inductive Handler
  /-- Before its call of `try_acquire`. -/
  | idle
  /-- In `try_acquire`, having read `prev`. -/
  | acquiring (prev : Nat)
  /-- With a guard. -/
  | serving
  /-- After `try_acquire` returned `None`. -/
  | rejected
  /-- After the drop of its guard. -/
  | closed
  deriving DecidableEq, Repr

structure State (η : Type) where
  /-- `ACTIVE_CONNECTIONS`. -/
  active : Nat
  handler : η → Handler

inductive Action (η : Type)
  | load (i : η)
  | exchange (i : η)
  | retry (i : η)
  | reject (i : η)
  | drop (i : η)
  deriving DecidableEq

variable {η : Type} [DecidableEq η]

/-- A handler goes on. -/
def State.goto (s : State η) (i : η) (handler : Handler) : State η :=
  { s with handler := Function.update s.handler i handler }

inductive Step [Usize] : State η → Action η → State η → Prop
  | load {s : State η} {i : η} (hi : s.handler i = .idle) :
      Step s (.load i) (s.goto i (.acquiring s.active))
  | exchange {s : State η} {i : η} {prev next : Nat} (hi : s.handler i = .acquiring prev)
      (hu : ConnectionGuard.tryAcquireUpdate prev = .ok (some next)) (ha : s.active = prev) :
      Step s (.exchange i) { s.goto i .serving with active := next }
  | retry {s : State η} {i : η} {prev next : Nat} (hi : s.handler i = .acquiring prev)
      (hu : ConnectionGuard.tryAcquireUpdate prev = .ok (some next)) :
      Step s (.retry i) (s.goto i (.acquiring s.active))
  | reject {s : State η} {i : η} {prev : Nat} (hi : s.handler i = .acquiring prev)
      (hu : ConnectionGuard.tryAcquireUpdate prev = .ok none) :
      Step s (.reject i) (s.goto i .rejected)
  | drop {s : State η} {i : η} (hi : s.handler i = .serving) :
      Step s (.drop i) { s.goto i .closed with active := ConnectionGuard.drop s.active }

omit [DecidableEq η] in
/-- The state after boot. -/
def initial (η : Type) : State η := ⟨0, fun _ => .idle⟩

def system (η : Type) [DecidableEq η] [Usize] : System (State η) (Action η) where
  init s := s = initial η
  step := Step

end SrkOS.Impl.Connection
