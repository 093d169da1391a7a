import SrkOS.Framework.DoubleBuffer
import SrkOS.Impl.Audio
import Mathlib.Logic.Function.Basic

/-!
# Interleaved swaps and reads of the ping-pong pair

Each atomic access is a step of its own: `swap` stores `ready_len`, then toggles
`active_is_pong`; `ready_buffer_from` loads `ready_len`, returns if it is 0, and
else loads `active_is_pong` and takes the other half. Swaps come one at a time,
each after the active half has been filled; any number of readers `ρ` may call
`ready_buffer_from` meanwhile.
-/

namespace SrkOS.Impl.AudioAtomics

open Framework

/-- A call of `ready_buffer_from` between its two loads. -/
structure Call where
  len : Nat
  /-- The length given to the swap that stored `ready_len` last before it was
  loaded. -/
  stored : Option Nat
  deriving DecidableEq, Repr

structure State (ρ : Type) where
  state : PingPongState
  frames : I2sFrames
  /-- The length given to the swap that has stored it and not toggled yet. -/
  swapping : Option Nat
  /-- The length given to the swap that stored `ready_len` last. -/
  stored : Option Nat
  /-- The length given to the swap that toggled `active_is_pong` last. -/
  toggled : Option Nat
  /-- For each half, the capture of the swap that completed it last. -/
  captures : PingPong → Option (Capture UInt8)
  calls : ρ → Option Call

inductive Action (ρ : Type)
  | write (i : Nat) (byte : UInt8)
  | storeReadyLen (len : Nat)
  | toggleActive
  | loadReadyLen (r : ρ)
  | loadActive (r : ρ)
  deriving DecidableEq

/-- A call that has loaded `ready_len`, unless it has returned. -/
def call (len : Nat) (stored : Option Nat) : Option Call :=
  if len = 0 then none else some ⟨len, stored⟩

inductive Step {ρ : Type} [DecidableEq ρ] : State ρ → Action ρ → State ρ → Prop
  | write {s : State ρ} (i : Nat) (byte : UInt8) (hs : s.swapping = none) :
      Step s (.write i byte) { s with frames := s.frames.write s.state.active i byte }
  | storeReadyLen {s : State ρ} (len : Nat) (hs : s.swapping = none) :
      Step s (.storeReadyLen len)
        { s with state := s.state.storeReadyLen len, swapping := some len, stored := some len }
  | toggleActive {s : State ρ} {len : Nat} (hs : s.swapping = some len) :
      Step s .toggleActive
        { s with
          state := s.state.toggleActive, swapping := none, toggled := some len,
          captures := Function.update s.captures s.state.active
            (some ⟨s.frames.half s.state.active, len⟩) }
  | loadReadyLen {s : State ρ} {r : ρ} (hr : s.calls r = none) :
      Step s (.loadReadyLen r)
        { s with calls := Function.update s.calls r (call s.state.readyLen s.stored) }
  | loadActive {s : State ρ} {r : ρ} {c : Call} {sl : Slice PingPong} (hr : s.calls r = some c)
      (h : s.state.readySlice s.frames c.len = .ok sl) :
      Step s (.loadActive r) { s with calls := Function.update s.calls r none }

/-- The state after boot. -/
def initial (ρ : Type) : State ρ :=
  ⟨.new, .zeroed, none, none, none, fun _ => none, fun _ => none⟩

def system (ρ : Type) [DecidableEq ρ] : System (State ρ) (Action ρ) where
  init s := s = initial ρ
  step := Step

end SrkOS.Impl.AudioAtomics
