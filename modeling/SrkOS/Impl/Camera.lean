import SrkOS.Impl.Hardware

/-!
# The camera's DMA ring (`src/tasks/camera.rs`)

The metadata of the ring, `DmaRingBuffer`, two atomics, and the ring itself,
`DMA_JPEG_RING`. `mark_frame_ready` and `current_frame_from` are written as the
sequences of their atomic accesses.
-/

namespace SrkOS.Impl

open Framework

def JPEG_FRAME_SIZE : Nat := 16384
def DMA_RING_DEPTH : Nat := 2

/-- The type of `DMA_JPEG_RING`. -/
abbrev JpegRing := Vector (Vector UInt8 JPEG_FRAME_SIZE) DMA_RING_DEPTH

/-- `DMA_JPEG_RING` at startup. -/
def JpegRing.zeroed : JpegRing := Vector.replicate _ (Vector.replicate _ 0)

/-- What a slot holds. -/
def JpegRing.slot (ring : JpegRing) (slot : Nat) : List UInt8 :=
  if h : slot < DMA_RING_DEPTH then ring[slot].toList else []

/-- The DMA engine's write of a byte of a slot. -/
def JpegRing.write (ring : JpegRing) (slot i : Nat) (byte : UInt8) : JpegRing :=
  if h : slot < DMA_RING_DEPTH then ring.set slot (ring[slot].setIfInBounds i byte) else ring

structure DmaRingBuffer where
  /-- Index of the ring slot the DMA engine will write to next. -/
  writeSlot : Nat
  /-- Valid byte counts for each ring slot. -/
  frameLens : Vector Nat DMA_RING_DEPTH

namespace DmaRingBuffer

def new : DmaRingBuffer := ⟨0, #v[0, 0]⟩

/-- The store to `frame_lens` in `mark_frame_ready`. -/
def storeFrameLen (self : DmaRingBuffer) (slot len : Nat) : Rust DmaRingBuffer := do
  let clamped := min len JPEG_FRAME_SIZE
  let slotIdx := slot % DMA_RING_DEPTH
  let frameLens ← store self.frameLens slotIdx clamped
  return { self with frameLens }

variable [Usize]

/-- The store to `write_slot` in `mark_frame_ready`. -/
def storeWriteSlot (self : DmaRingBuffer) (slot : Nat) : Rust DmaRingBuffer := do
  let slotIdx := slot % DMA_RING_DEPTH
  let next ← usizeAdd slotIdx 1
  return { self with writeSlot := next % DMA_RING_DEPTH }

def markFrameReady (self : DmaRingBuffer) (slot len : Nat) : Rust DmaRingBuffer := do
  let self ← self.storeFrameLen slot len
  self.storeWriteSlot slot

/-- The slot of the most recently completed frame. -/
def currentReadSlot (self : DmaRingBuffer) : Rust Nat := do
  let nextWrite := self.writeSlot
  let sum ← usizeAdd nextWrite DMA_RING_DEPTH
  let diff ← usizeSub sum 1
  return diff % DMA_RING_DEPTH

def currentFrameLen (self : DmaRingBuffer) : Rust Nat := do
  let slot ← self.currentReadSlot
  index self.frameLens slot

omit [Usize] in
/-- `current_frame_from` once it has its slot: the load of `frame_lens`, and the
slice. -/
def frameOf (self : DmaRingBuffer) (ring : JpegRing) (slot : Nat) : Rust (Slice Nat) := do
  let len ← index self.frameLens slot
  if len = 0 then return .empty
  let frame ← index ring slot
  sliceTo slot frame len

def currentFrameFrom (self : DmaRingBuffer) (ring : JpegRing) : Rust (Slice Nat) := do
  let slot ← self.currentReadSlot
  self.frameOf ring slot

end DmaRingBuffer

end SrkOS.Impl
