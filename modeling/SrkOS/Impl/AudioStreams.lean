import SrkOS.Framework.DoubleBuffer
import SrkOS.Impl.AudioAtomics

/-!
# Audio streams, access by access

`AudioAtomics` with connections `ρ` that send what they obtain: a connection calls
`ready_buffer` and, if the slice is not empty, sends its bytes one by one, from the half
itself, and then starts over.
-/

namespace SrkOS.Impl.AudioStreams

open Framework

structure State (ρ : Type) extends AudioAtomics.State ρ where
  /-- The slices being sent. -/
  loan : ρ → Option (Loan PingPong UInt8)

inductive Action (ρ : Type)
  | access (a : AudioAtomics.Action ρ)
  | transmit (r : ρ)
  | release (r : ρ)
  deriving DecidableEq

variable {ρ : Type} [DecidableEq ρ]

inductive Step : State ρ → Action ρ → State ρ → Prop
  | access {s : State ρ} {a : AudioAtomics.Action ρ} {t : AudioAtomics.State ρ}
      (h : AudioAtomics.Step s.toState a t) (hl : ∀ r, a = .loadReadyLen r → s.loan r = none)
      (hn : ∀ r, a ≠ .loadActive r) : Step s (.access a) { s with toState := t }
  | loadActive {s : State ρ} {r : ρ} {c : AudioAtomics.Call} {sl : Slice PingPong}
      (hr : s.calls r = some c) (h : s.state.readySlice s.frames c.len = .ok sl) :
      Step s (.access (.loadActive r))
        { s with
          calls := Function.update s.calls r none,
          loan := Function.update s.loan r (Loan.ofSlice s.frames.half sl) }
  | transmit {s : State ρ} {r : ρ} {l l' : Loan PingPong UInt8} (h : s.loan r = some l)
      (hl : l.send s.frames.half = some l') :
      Step s (.transmit r) { s with loan := Function.update s.loan r (some l') }
  | release (s : State ρ) (r : ρ) :
      Step s (.release r) { s with loan := Function.update s.loan r none }

omit [DecidableEq ρ] in
/-- The state after boot. -/
def initial (ρ : Type) : State ρ := ⟨AudioAtomics.initial ρ, fun _ => none⟩

def system (ρ : Type) [DecidableEq ρ] : System (State ρ) (Action ρ) where
  init s := s = initial ρ
  step := Step

end SrkOS.Impl.AudioStreams
