import SrkOS.Framework.DoubleBuffer
import SrkOS.Impl.Camera

/-!
# The camera pipeline

The driver captures frames number 0, 1, 2, …: frame `k` into slot `k % 2` of
the ring, which the DMA engine may write at any time until the frame is
complete and the driver calls `mark_frame_ready`, with `slotArg k` for the
slot. `wifi_task` obtains a slice with `current_frame` and, if it is not empty,
sends its bytes one by one (`socket.write_all(frame).await`), from the ring
itself.
-/

namespace SrkOS.Impl.Camera

open Framework

structure State where
  buf : DmaRingBuffer
  ring : JpegRing
  /-- The number of the frame being captured. -/
  frame : Nat
  /-- The frame completed last, with the length its driver gave. -/
  last : Option (Capture UInt8)
  /-- The slice `wifi_task` is sending. -/
  loan : Option (Loan Nat UInt8)

/-- The slot the DMA engine is filling. -/
def State.fillSlot (s : State) : Nat := s.frame % DMA_RING_DEPTH

inductive Action
  | write (i : Nat) (byte : UInt8)
  | complete (len : Nat)
  | acquire
  | transmit
  | release
  deriving DecidableEq

inductive Step [Usize] (slotArg : Nat → Nat) : State → Action → State → Prop
  | write (s : State) (i : Nat) (byte : UInt8) :
      Step slotArg s (.write i byte) { s with ring := s.ring.write s.fillSlot i byte }
  | complete {s : State} {len : Nat} {buf' : DmaRingBuffer}
      (h : s.buf.markFrameReady (slotArg s.frame) len = .ok buf') :
      Step slotArg s (.complete len)
        { s with buf := buf', frame := s.frame + 1, last := some ⟨s.ring.slot s.fillSlot, len⟩ }
  | acquire {s : State} {sl : Slice Nat} (hn : s.loan = none)
      (h : s.buf.currentFrameFrom s.ring = .ok sl) :
      Step slotArg s .acquire { s with loan := Loan.ofSlice s.ring.slot sl }
  | transmit {s : State} {l l' : Loan Nat UInt8} (h : s.loan = some l)
      (hl : l.send s.ring.slot = some l') : Step slotArg s .transmit { s with loan := some l' }
  | release (s : State) : Step slotArg s .release { s with loan := none }

/-- The state after boot. -/
def initial : State := ⟨.new, .zeroed, 0, none, none⟩

def system [Usize] (slotArg : Nat → Nat) : System State Action where
  init s := s = initial
  step := Step slotArg

end SrkOS.Impl.Camera
