import SrkOS.Framework.System
import SrkOS.Impl.Camera
import Mathlib.Logic.Function.Basic

/-!
# Interleaved accesses to the ring's metadata

Each atomic access is a step of its own: `mark_frame_ready` stores its entry of
`frame_lens`, then `write_slot`; `current_frame_from` loads `write_slot`, then
the entry of `frame_lens` of the slot it is to read. Any number of drivers `δ`
may call the one, with any slots and lengths, and any number of readers `ρ` the
other, all at the same time; and the DMA engine may write anywhere in the ring.
-/

namespace SrkOS.Impl.CameraAtomics

open Framework

structure State (δ ρ : Type) where
  buf : DmaRingBuffer
  ring : JpegRing
  /-- The slot passed to the `mark_frame_ready` that a driver is in, between its
  two stores. -/
  marking : δ → Option Nat
  /-- The slot read by the `current_frame_from` that a reader is in, between its
  two loads. -/
  reading : ρ → Option Nat

inductive Action (δ ρ : Type)
  | write (slot i : Nat) (byte : UInt8)
  | storeFrameLen (d : δ) (slot len : Nat)
  | storeWriteSlot (d : δ)
  | loadWriteSlot (r : ρ)
  | loadFrameLen (r : ρ)
  deriving DecidableEq

variable {δ ρ : Type} [DecidableEq δ] [DecidableEq ρ]

inductive Step [Usize] : State δ ρ → Action δ ρ → State δ ρ → Prop
  | write (s : State δ ρ) (slot i : Nat) (byte : UInt8) :
      Step s (.write slot i byte) { s with ring := s.ring.write slot i byte }
  | storeFrameLen {s : State δ ρ} {d : δ} {slot len : Nat} {buf' : DmaRingBuffer}
      (hd : s.marking d = none) (h : s.buf.storeFrameLen slot len = .ok buf') :
      Step s (.storeFrameLen d slot len)
        { s with buf := buf', marking := Function.update s.marking d (some slot) }
  | storeWriteSlot {s : State δ ρ} {d : δ} {slot : Nat} {buf' : DmaRingBuffer}
      (hd : s.marking d = some slot) (h : s.buf.storeWriteSlot slot = .ok buf') :
      Step s (.storeWriteSlot d)
        { s with buf := buf', marking := Function.update s.marking d none }
  | loadWriteSlot {s : State δ ρ} {r : ρ} {slot : Nat} (hr : s.reading r = none)
      (h : s.buf.currentReadSlot = .ok slot) :
      Step s (.loadWriteSlot r) { s with reading := Function.update s.reading r (some slot) }
  | loadFrameLen {s : State δ ρ} {r : ρ} {slot : Nat} {sl : Slice Nat}
      (hr : s.reading r = some slot) (h : s.buf.frameOf s.ring slot = .ok sl) :
      Step s (.loadFrameLen r) { s with reading := Function.update s.reading r none }

omit [DecidableEq δ] [DecidableEq ρ] in
/-- The state after boot. -/
def initial (δ ρ : Type) : State δ ρ := ⟨.new, .zeroed, fun _ => none, fun _ => none⟩

def system (δ ρ : Type) [DecidableEq δ] [DecidableEq ρ] [Usize] :
    System (State δ ρ) (Action δ ρ) where
  init s := s = initial δ ρ
  step := Step

end SrkOS.Impl.CameraAtomics
