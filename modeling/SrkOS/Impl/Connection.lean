import SrkOS.Framework.Rust

/-!
# Connection limiting (`src/tasks/http.rs`)

What `ConnectionGuard` does to `ACTIVE_CONNECTIONS`, an `AtomicUsize`.
-/

namespace SrkOS.Impl

open Framework

def MAX_CONNECTIONS : Nat := 2

namespace ConnectionGuard

variable [Usize]

/-- The closure `try_acquire` passes to `fetch_update`. `n + 1` is computed
whether or not the limit is reached, and so it overflows at `usize::MAX`: a build
with overflow checks panics there, as here, while the release build wraps, and
gives `None` because the limit is reached. -/
def tryAcquireUpdate (n : Nat) : Rust (Option Nat) := do
  let next ← usizeAdd n 1
  return if n < MAX_CONNECTIONS then some next else none

/-- The `fetch_sub` of `drop`. -/
def drop (active : Nat) : Nat := usizeWrappingSub active 1

end ConnectionGuard

end SrkOS.Impl
