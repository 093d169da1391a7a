import SrkOS.Impl.CameraSystem

/-!
# The camera ring is a double buffer

What each method of `DmaRingBuffer` does (`markFrameReady_ok`,
`currentReadSlot_ok`, `currentFrameFrom_ok`), and the invariant of the pipeline
(`Inv`): `write_slot` is the slot being filled, and the other one has the
length of the last frame. With it, and with a driver that passes slots of the
right parity, the pipeline refines the double buffer (`refines`): no method
panics, and what `current_frame_from` shows is the last frame
(`currentFrameFrom_latest`).
-/

namespace SrkOS.Proof.Camera

open Framework SrkOS.Impl SrkOS.Impl.Camera

/-! ## The methods -/

theorem mod_depth_lt (n : Nat) : n % DMA_RING_DEPTH < DMA_RING_DEPTH := Nat.mod_lt _ (by decide)

theorem storeFrameLen_ok (buf : DmaRingBuffer) (slot len : Nat) :
    buf.storeFrameLen slot len =
      .ok { buf with
        frameLens :=
          buf.frameLens.set (slot % DMA_RING_DEPTH) (min len JPEG_FRAME_SIZE) (mod_depth_lt slot) } := by
  simp only [DmaRingBuffer.storeFrameLen, store_ok _ _ (mod_depth_lt slot), bind, Except.bind, pure,
    Except.pure]

section

variable [Usize]

theorem storeWriteSlot_ok (buf : DmaRingBuffer) (slot : Nat) :
    buf.storeWriteSlot slot =
      .ok { buf with writeSlot := (slot % DMA_RING_DEPTH + 1) % DMA_RING_DEPTH } := by
  have hlt := mod_depth_lt slot
  have hadd : usizeAdd (slot % DMA_RING_DEPTH) 1 = .ok (slot % DMA_RING_DEPTH + 1) :=
    usizeAdd_ok (by simp only [DMA_RING_DEPTH] at hlt ⊢; omega)
  simp only [DmaRingBuffer.storeWriteSlot, hadd, bind, Except.bind, pure, Except.pure]

theorem markFrameReady_ok (buf : DmaRingBuffer) (slot len : Nat) :
    buf.markFrameReady slot len =
      .ok ⟨(slot % DMA_RING_DEPTH + 1) % DMA_RING_DEPTH,
        buf.frameLens.set (slot % DMA_RING_DEPTH) (min len JPEG_FRAME_SIZE) (mod_depth_lt slot)⟩ := by
  rw [DmaRingBuffer.markFrameReady, storeFrameLen_ok]
  exact storeWriteSlot_ok _ slot

theorem currentReadSlot_ok {buf : DmaRingBuffer} (h : buf.writeSlot < DMA_RING_DEPTH) :
    buf.currentReadSlot = .ok ((buf.writeSlot + 1) % DMA_RING_DEPTH) := by
  have hadd : usizeAdd buf.writeSlot DMA_RING_DEPTH = .ok (buf.writeSlot + DMA_RING_DEPTH) :=
    usizeAdd_ok (by simp only [DMA_RING_DEPTH] at h ⊢; omega)
  have hsub : usizeSub (buf.writeSlot + DMA_RING_DEPTH) 1 = .ok (buf.writeSlot + 1) :=
    usizeSub_ok (by simp only [DMA_RING_DEPTH]; omega)
  simp only [DmaRingBuffer.currentReadSlot, hadd, hsub, bind, Except.bind, pure, Except.pure]

end

theorem frameOf_ok {buf : DmaRingBuffer} {ring : JpegRing} {slot len : Nat}
    (h : slot < DMA_RING_DEPTH) (hl : index buf.frameLens slot = .ok len)
    (hle : len ≤ JPEG_FRAME_SIZE) :
    buf.frameOf ring slot = .ok (if len = 0 then .empty else .of slot len) := by
  simp only [DmaRingBuffer.frameOf, hl, index_ok _ h, bind, Except.bind, pure, Except.pure,
    sliceTo_ok hle]
  split <;> rfl

/-- The DMA engine's writes to a slot leave the others alone. -/
theorem slot_write_ne (ring : JpegRing) {slot slot' : Nat} (h : slot' ≠ slot) (i : Nat)
    (byte : UInt8) : (ring.write slot i byte).slot slot' = ring.slot slot' := by
  simp only [JpegRing.slot, JpegRing.write]
  split
  · split
    · rw [Vector.getElem_set_ne _ _ h.symm]
    · rfl
  · rfl

theorem fillSlot_lt (s : State) : s.fillSlot < DMA_RING_DEPTH := mod_depth_lt _

/-! ## The invariant -/

/-- The number of valid bytes of the last frame, 0 before the first. -/
def lastLen (s : State) : Nat := Capture.latestLen (s.last.map (Capture.clamp JPEG_FRAME_SIZE))

structure Inv (s : State) : Prop where
  /-- `write_slot` is the slot being filled. -/
  write : s.buf.writeSlot = s.fillSlot
  /-- The other slot's length is that of the last frame. -/
  len : index s.buf.frameLens ((s.frame + 1) % DMA_RING_DEPTH) = .ok (lastLen s)
  /-- The slice on loan is in the ring. -/
  loan : ∀ l, s.loan = some l → l.buf < DMA_RING_DEPTH

theorem lastLen_le (s : State) : lastLen s ≤ JPEG_FRAME_SIZE := Capture.latestLen_clamp_le _ _

theorem inv_initial : Inv initial := ⟨rfl, rfl, nofun⟩

namespace Inv

variable [Usize] {s s' : State}

theorem currentReadSlot (h : Inv s) :
    s.buf.currentReadSlot = .ok ((s.frame + 1) % DMA_RING_DEPTH) := by
  rw [currentReadSlot_ok (by rw [h.write]; exact fillSlot_lt s), h.write, State.fillSlot,
    Nat.mod_add_mod]

theorem currentFrameLen (h : Inv s) : s.buf.currentFrameLen = .ok (lastLen s) := by
  simp only [DmaRingBuffer.currentFrameLen, h.currentReadSlot, bind, Except.bind, h.len]

theorem currentFrameFrom (h : Inv s) :
    s.buf.currentFrameFrom s.ring =
      .ok (if lastLen s = 0 then .empty else .of ((s.frame + 1) % DMA_RING_DEPTH) (lastLen s)) := by
  simp only [DmaRingBuffer.currentFrameFrom, h.currentReadSlot, bind, Except.bind]
  exact frameOf_ok (mod_depth_lt _) h.len (lastLen_le s)

theorem step {slotArg : Nat → Nat} (hp : ∀ k, slotArg k % DMA_RING_DEPTH = k % DMA_RING_DEPTH)
    {a : Action} (h : Inv s) (hs : Step slotArg s a s') : Inv s' := by
  cases hs with
  | write i byte => exact ⟨h.write, h.len, h.loan⟩
  | @complete len buf' hm =>
    rw [markFrameReady_ok, Except.ok.injEq] at hm
    subst hm
    refine ⟨?_, ?_, h.loan⟩
    · simp only [hp, State.fillSlot, Nat.mod_add_mod]
    · have hk : (s.frame + 1 + 1) % DMA_RING_DEPTH = slotArg s.frame % DMA_RING_DEPTH := by
        rw [hp]; simp only [DMA_RING_DEPTH]; omega
      rw [hk, index_ok _ (mod_depth_lt _), Vector.getElem_set_self]
      rfl
  | acquire hn hf =>
    refine ⟨h.write, h.len, fun l hl => ?_⟩
    rw [h.currentFrameFrom, Except.ok.injEq] at hf
    subst hf
    split at hl
    · simp [Loan.ofSlice] at hl
    · rw [Loan.buf_of_ofSlice hl]; exact mod_depth_lt _
  | transmit hl hl' =>
    refine ⟨h.write, h.len, fun l hl₁ => ?_⟩
    simp only [Option.some.injEq] at hl₁
    rw [← hl₁, Loan.buf_of_send hl']
    exact h.loan _ hl
  | release => exact ⟨h.write, h.len, fun l hl => by simp at hl⟩

end Inv

/-! ## Refinement -/

/-- The buffer a slot is. -/
def slotBit (slot : Nat) : Bool := decide (slot = 1)

theorem toNat_slotBit {slot : Nat} (h : slot < DMA_RING_DEPTH) : (slotBit slot).toNat = slot := by
  rw [DMA_RING_DEPTH] at h
  rcases (by omega : slot = 0 ∨ slot = 1) with rfl | rfl <;> rfl

theorem slotBit_toNat (b : Bool) : slotBit b.toNat = b := by cases b <;> rfl

theorem slotBit_succ (k : Nat) : slotBit ((k + 1) % DMA_RING_DEPTH) = !slotBit (k % DMA_RING_DEPTH) := by
  rw [slotBit, slotBit, ← decide_not, decide_eq_decide]
  simp only [DMA_RING_DEPTH]
  omega

/-- The double buffer of the pipeline. -/
def abs (s : State) : DoubleBuffer.State UInt8 where
  mem b := s.ring.slot b.toNat
  fill := slotBit s.fillSlot
  last := s.last.map (Capture.clamp JPEG_FRAME_SIZE)
  loan := s.loan.map (Loan.map slotBit)

def act : Action → DoubleBuffer.Action
  | .write _ _ => .write
  | .complete len => .complete (min len JPEG_FRAME_SIZE)
  | .acquire => .acquire
  | .transmit => .transmit
  | .release => .release

theorem abs_mem {s : State} {slot : Nat} (h : slot < DMA_RING_DEPTH) :
    (abs s).mem (slotBit slot) = s.ring.slot slot := by
  simp only [abs, toNat_slotBit h]

/-- What is ready, by the lengths and slots of the ring. -/
theorem abs_ready (s : State) :
    (abs s).ready = if lastLen s = 0 then .empty
      else .of (slotBit ((s.frame + 1) % DMA_RING_DEPTH)) (lastLen s) := by
  rw [slotBit_succ]
  rfl

variable [Usize] {s s' : State}

theorem abs_acquire (h : Inv s) {sl : Slice Nat} (hf : s.buf.currentFrameFrom s.ring = .ok sl) :
    (Loan.ofSlice s.ring.slot sl).map (Loan.map slotBit) =
      Loan.ofSlice (abs s).mem (abs s).ready := by
  rw [h.currentFrameFrom, Except.ok.injEq] at hf
  rw [abs_ready, ← hf]
  split
  · rfl
  · exact Loan.map_ofSlice (abs_mem (mod_depth_lt _))

theorem Inv.abs_step {slotArg : Nat → Nat} {a : Action} (h : Inv s) (hs : Step slotArg s a s') :
    DoubleBuffer.Step (abs s) (act a) (abs s') := by
  cases hs with
  | write i byte =>
    have hmem : (abs { s with ring := s.ring.write s.fillSlot i byte }).mem =
        Function.update (abs s).mem (abs s).fill ((s.ring.write s.fillSlot i byte).slot s.fillSlot) := by
      funext b
      rw [show (abs s).fill = slotBit s.fillSlot from rfl, Function.update_apply]
      split
      · rename_i hb
        rw [hb, abs_mem (fillSlot_lt s)]
      · rename_i hb
        have hne : b.toNat ≠ s.fillSlot := fun he => hb (by rw [← he, slotBit_toNat])
        exact slot_write_ne _ hne _ _
    have := DoubleBuffer.Step.write (abs s) ((s.ring.write s.fillSlot i byte).slot s.fillSlot)
    rwa [← hmem] at this
  | @complete len buf' hm =>
    have := DoubleBuffer.Step.complete (abs s) (min len JPEG_FRAME_SIZE)
    rw [show (!(abs s).fill) = slotBit ((s.frame + 1) % DMA_RING_DEPTH) from (slotBit_succ _).symm,
      show (abs s).mem (abs s).fill = s.ring.slot s.fillSlot from abs_mem (fillSlot_lt s)] at this
    exact this
  | acquire hn hf =>
    have := DoubleBuffer.Step.acquire (abs s) (by simp only [abs, hn, Option.map_none])
    rwa [← abs_acquire h hf] at this
  | @transmit l l' hl hl' =>
    refine DoubleBuffer.Step.transmit (abs s) (l := l.map slotBit) ?_ ?_
    · simp only [abs, hl, Option.map_some]
    · rw [← Loan.map_send (abs_mem (h.loan l hl)), hl', Option.map_some]
  | release => exact .release (abs s)

/-- With a driver that passes slots of the right parity, the pipeline is a
double buffer. -/
def refines {slotArg : Nat → Nat} (hp : ∀ k, slotArg k % DMA_RING_DEPTH = k % DMA_RING_DEPTH) :
    Refines (system slotArg) (DoubleBuffer.system UInt8) where
  inv := Inv
  abs := abs
  act := act
  init s hi := by rw [hi]; exact ⟨inv_initial, rfl, rfl, rfl⟩
  step _ _ _ h hs := ⟨h.step hp hs, h.abs_step hs⟩

/-! ## The latest frame -/

section

variable {slotArg : Nat → Nat} (hp : ∀ k, slotArg k % DMA_RING_DEPTH = k % DMA_RING_DEPTH)
  {h : List (State × Action)}

include hp

/-- What `current_frame_from` shows is the last frame. -/
theorem currentFrameFrom_latest (hr : Run (system slotArg) h s) :
    ∃ sl, s.buf.currentFrameFrom s.ring = .ok sl ∧
      sl.read s.ring.slot = Capture.latest (s.last.map (Capture.clamp JPEG_FRAME_SIZE)) := by
  have hi : Inv s := (refines hp).inv_run hr
  have hl : (abs s).ready.read (abs s).mem = Capture.latest (abs s).last :=
    DoubleBuffer.run_latest ((refines hp).run hr)
  refine ⟨_, hi.currentFrameFrom, ?_⟩
  rw [abs_ready] at hl
  show _ = Capture.latest (abs s).last
  rw [← hl]
  split
  · rfl
  · simp only [Slice.read_of, abs_mem (mod_depth_lt _)]

end

end SrkOS.Proof.Camera
