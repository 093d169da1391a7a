import SrkOS.Framework.DoubleBuffer
import SrkOS.Impl.CameraAtomics

/-!
# Video streams, access by access

The driver and the DMA engine at work, and any number of connections `ρ` that stream
from the ring, with the accesses to its metadata as the steps of `CameraAtomics`. The
DMA engine fills the slot `write_slot`; when a frame is complete the driver calls
`mark_frame_ready` for that slot, and the engine goes on when the call has returned. A
connection calls `current_frame`; if the slice is not empty, it sends its bytes one by
one, from the ring itself, and then starts over.
-/

namespace SrkOS.Impl.CameraStreams

open Framework

structure State (ρ : Type) extends CameraAtomics.State Unit ρ where
  /-- The frame that the driver has completed last, with the length it gave. -/
  completed : Option (Capture UInt8)
  /-- The frame published last, by the second store of its `mark_frame_ready`. -/
  last : Option (Capture UInt8)
  /-- The slices being sent. -/
  loan : ρ → Option (Loan Nat UInt8)

inductive Action (ρ : Type)
  | access (a : CameraAtomics.Action Unit ρ)
  | transmit (r : ρ)
  | release (r : ρ)
  deriving DecidableEq

variable {ρ : Type} [DecidableEq ρ]

inductive Step [Usize] : State ρ → Action ρ → State ρ → Prop
  | write {s : State ρ} (i : Nat) (byte : UInt8) (hm : s.marking () = none) :
      Step s (.access (.write s.buf.writeSlot i byte))
        { s with ring := s.ring.write s.buf.writeSlot i byte }
  | storeFrameLen {s : State ρ} {slot len : Nat} {buf' : DmaRingBuffer} (hm : s.marking () = none)
      (hs : slot % DMA_RING_DEPTH = s.buf.writeSlot) (h : s.buf.storeFrameLen slot len = .ok buf') :
      Step s (.access (.storeFrameLen () slot len))
        { s with
          buf := buf', marking := Function.update s.marking () (some slot),
          completed := some ⟨s.ring.slot s.buf.writeSlot, len⟩ }
  | storeWriteSlot {s : State ρ} {slot : Nat} {buf' : DmaRingBuffer} (hm : s.marking () = some slot)
      (h : s.buf.storeWriteSlot slot = .ok buf') :
      Step s (.access (.storeWriteSlot ()))
        { s with
          buf := buf', marking := Function.update s.marking () none, last := s.completed }
  | loadWriteSlot {s : State ρ} {r : ρ} {slot : Nat} (hl : s.loan r = none)
      (hr : s.reading r = none) (h : s.buf.currentReadSlot = .ok slot) :
      Step s (.access (.loadWriteSlot r))
        { s with reading := Function.update s.reading r (some slot) }
  | loadFrameLen {s : State ρ} {r : ρ} {slot : Nat} {sl : Slice Nat} (hr : s.reading r = some slot)
      (h : s.buf.frameOf s.ring slot = .ok sl) :
      Step s (.access (.loadFrameLen r))
        { s with
          reading := Function.update s.reading r none,
          loan := Function.update s.loan r (Loan.ofSlice s.ring.slot sl) }
  | transmit {s : State ρ} {r : ρ} {l l' : Loan Nat UInt8} (h : s.loan r = some l)
      (hl : l.send s.ring.slot = some l') :
      Step s (.transmit r) { s with loan := Function.update s.loan r (some l') }
  | release (s : State ρ) (r : ρ) :
      Step s (.release r) { s with loan := Function.update s.loan r none }

omit [DecidableEq ρ] in
/-- The state after boot. -/
def initial (ρ : Type) : State ρ := ⟨CameraAtomics.initial Unit ρ, none, none, fun _ => none⟩

def system (ρ : Type) [DecidableEq ρ] [Usize] : System (State ρ) (Action ρ) where
  init s := s = initial ρ
  step := Step

end SrkOS.Impl.CameraStreams
