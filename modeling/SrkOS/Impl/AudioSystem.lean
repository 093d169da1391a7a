import SrkOS.Framework.DoubleBuffer
import SrkOS.Impl.Audio

/-!
# The audio pipeline

The I2S DMA engine may at any time write any byte into the active half; on
completion of a capture it calls `swap` and goes on in the half then active.
`wifi_task` obtains a slice with `ready_buffer` and, if it is not empty, sends
its bytes one by one (`socket.write_all(samples).await`), from the half itself.
-/

namespace SrkOS.Impl.Audio

open Framework

structure State where
  state : PingPongState
  frames : I2sFrames
  /-- What the half completed last held then, with the length of its swap. -/
  last : Option (Capture UInt8)
  /-- The slice `wifi_task` is sending. -/
  loan : Option (Loan PingPong UInt8)

inductive Action
  | write (i : Nat) (byte : UInt8)
  | swap (len : Nat)
  | acquire
  | transmit
  | release
  deriving DecidableEq

inductive Step : State → Action → State → Prop
  | write (s : State) (i : Nat) (byte : UInt8) :
      Step s (.write i byte) { s with frames := s.frames.write s.state.active i byte }
  | swap (s : State) (len : Nat) :
      Step s (.swap len)
        { s with state := s.state.swap len, last := some ⟨s.frames.half s.state.active, len⟩ }
  | acquire {s : State} {sl : Slice PingPong} (hn : s.loan = none)
      (h : s.state.readyBufferFrom s.frames = .ok sl) :
      Step s .acquire { s with loan := Loan.ofSlice s.frames.half sl }
  | transmit {s : State} {l l' : Loan PingPong UInt8} (h : s.loan = some l)
      (hl : l.send s.frames.half = some l') : Step s .transmit { s with loan := some l' }
  | release (s : State) : Step s .release { s with loan := none }

/-- The state after boot. -/
def initial : State := ⟨.new, .zeroed, none, none⟩

def system : System State Action where
  init s := s = initial
  step := Step

end SrkOS.Impl.Audio
