import SrkOS.Framework.System
import SrkOS.Impl.Connection

/-!
# Clients of `ConnectionGuard`

`ConnectionGuard` is a public unit struct. So a module outside
`src/tasks/http.rs` gets guards in two ways: from `try_acquire`, and by writing
`ConnectionGuard` itself, which is all its constructor takes. It may drop any
guard that it holds. Nothing tells one guard from another, so that only their
number counts.
-/

namespace SrkOS.Impl.Client

open Framework

structure State where
  /-- `ACTIVE_CONNECTIONS`. -/
  active : Nat
  /-- The number of guards held. -/
  guards : Nat

inductive Action
  | tryAcquire
  | construct
  | drop
  deriving DecidableEq, Repr

/-- With the counter at `usize::MAX`, `tryAcquire` has no step: it panics in a build
with overflow checks. In the release build it is `refused` there. -/
inductive Step [Usize] : State → Action → State → Prop
  | acquired {s : State} {next : Nat}
      (hu : ConnectionGuard.tryAcquireUpdate s.active = .ok (some next)) :
      Step s .tryAcquire ⟨next, s.guards + 1⟩
  | refused {s : State} (hu : ConnectionGuard.tryAcquireUpdate s.active = .ok none) :
      Step s .tryAcquire s
  | construct (s : State) : Step s .construct { s with guards := s.guards + 1 }
  | drop {s : State} (hg : s.guards ≠ 0) :
      Step s .drop ⟨ConnectionGuard.drop s.active, s.guards - 1⟩

/-- The state after boot. -/
def initial : State := ⟨0, 0⟩

def system [Usize] : System State Action where
  init s := s = initial
  step := Step

end SrkOS.Impl.Client
