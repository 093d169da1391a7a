import SrkOS.Impl.CameraAtomics
import SrkOS.Proof.Camera.Ring

/-!
# The metadata under interleaved accesses

Whatever the drivers' slots and however their calls and those of the readers
overlap: `write_slot` is a slot of the ring, and an entry of `frame_lens` is the
clamped length that was stored for its slot last (`Inv`). So a reader, though its
slot may be stale when it loads the length, gets the length of that very slot,
and a slice in bounds (`metadata_sound`).
-/

namespace SrkOS.Proof.CameraAtomics

open Framework SrkOS.Impl SrkOS.Impl.CameraAtomics SrkOS.Proof.Camera

variable {δ ρ : Type}

/-- The length a step stores for `slot`, as given to `mark_frame_ready`. -/
def storedBy (slot : Nat) : Action δ ρ → Option Nat
  | .storeFrameLen _ slot' len => if slot' % DMA_RING_DEPTH = slot then some len else none
  | _ => none

/-- The length stored for `slot` last, as given to `mark_frame_ready`. -/
def lastStored (slot : Nat) (h : List (State δ ρ × Action δ ρ)) : Option Nat :=
  h.findSome? fun e => storedBy slot e.2

/-- The number of valid bytes of what was stored for a slot, 0 for nothing. -/
def validLen : Option Nat → Nat
  | some len => min len JPEG_FRAME_SIZE
  | none => 0

theorem validLen_le (stored : Option Nat) : validLen stored ≤ JPEG_FRAME_SIZE := by
  cases stored with
  | none => exact Nat.zero_le _
  | some len => exact Nat.min_le_right _ _

theorem lastStored_cons (slot : Nat) (s : State δ ρ) (a : Action δ ρ)
    (h : List (State δ ρ × Action δ ρ)) :
    lastStored slot ((s, a) :: h) = (storedBy slot a).or (lastStored slot h) := by
  rw [lastStored, List.findSome?_cons]
  cases storedBy slot a <;> rfl

/-! ## The invariant -/

structure Inv (h : List (State δ ρ × Action δ ρ)) (s : State δ ρ) : Prop where
  writeSlot : s.buf.writeSlot < DMA_RING_DEPTH
  /-- Each slot has the length stored for it last. -/
  frameLens : ∀ slot < DMA_RING_DEPTH,
    index s.buf.frameLens slot = .ok (validLen (lastStored slot h))
  reading : ∀ r slot, s.reading r = some slot → slot < DMA_RING_DEPTH

theorem inv_initial : Inv [] (initial δ ρ) := by
  refine ⟨show 0 < DMA_RING_DEPTH by decide, fun slot hs => ?_, nofun⟩
  rw [DMA_RING_DEPTH] at hs
  rcases (by omega : slot = 0 ∨ slot = 1) with rfl | rfl <;> rfl

/-- The entry of `frame_lens` of a slot, after a store to it or to another. -/
theorem index_stored (lens : Vector Nat DMA_RING_DEPTH) {slot : Nat} (hs : slot < DMA_RING_DEPTH)
    (slot' len : Nat) :
    index (lens.set (slot' % DMA_RING_DEPTH) len (mod_depth_lt slot')) slot =
      if slot' % DMA_RING_DEPTH = slot then .ok len else index lens slot := by
  rw [index_ok _ hs, index_ok _ hs]
  by_cases he : slot' % DMA_RING_DEPTH = slot
  · subst he
    rw [if_pos rfl, Vector.getElem_set_self]
  · rw [if_neg he, Vector.getElem_set_ne _ _ he]

section

variable [DecidableEq δ] [DecidableEq ρ] [Usize] {h : List (State δ ρ × Action δ ρ)}
  {s s' : State δ ρ} {a : Action δ ρ}

/-- The slot a reader gets is a slot of the ring. -/
theorem currentReadSlot_lt {buf : DmaRingBuffer} {slot : Nat} (hw : buf.writeSlot < DMA_RING_DEPTH)
    (h : buf.currentReadSlot = .ok slot) : slot < DMA_RING_DEPTH := by
  rw [currentReadSlot_ok hw, Except.ok.injEq] at h
  rw [← h]
  exact mod_depth_lt _

theorem Inv.step (hi : Inv h s) (hs : Step s a s') : Inv ((s, a) :: h) s' := by
  cases hs with
  | write slot i byte => exact ⟨hi.writeSlot, hi.frameLens, hi.reading⟩
  | @storeFrameLen d slot' len buf' hd hok =>
    rw [storeFrameLen_ok, Except.ok.injEq] at hok
    subst hok
    refine ⟨hi.writeSlot, fun slot hlt => ?_, hi.reading⟩
    rw [lastStored_cons, storedBy, index_stored _ hlt]
    by_cases he : slot' % DMA_RING_DEPTH = slot
    · rw [if_pos he, if_pos he]
      rfl
    · rw [if_neg he, if_neg he, Option.none_or]
      exact hi.frameLens slot hlt
  | @storeWriteSlot d slot' buf' hd hok =>
    rw [storeWriteSlot_ok, Except.ok.injEq] at hok
    subst hok
    exact ⟨mod_depth_lt _, hi.frameLens, hi.reading⟩
  | @loadWriteSlot r slot hr hok =>
    refine ⟨hi.writeSlot, hi.frameLens, forall_update hi.reading r fun slot' he => ?_⟩
    rw [← Option.some.inj he]
    exact currentReadSlot_lt hi.writeSlot hok
  | @loadFrameLen r slot sl hr hok =>
    exact ⟨hi.writeSlot, hi.frameLens, forall_update hi.reading r (by simp)⟩

theorem run_inv (hr : Run (system δ ρ) h s) : Inv h s := by
  induction hr with
  | start hi =>
    rw [hi]
    exact inv_initial
  | next _ hs ih => exact ih.step hs

/-- In every run of any number of drivers and readers: `write_slot` is 0 or 1, no
entry of `frame_lens` is more than `JPEG_FRAME_SIZE`, no store or load of a call
panics; and a reader that loads the length of its slot gets the clamped length
stored for that slot last, 0 if there is none, and a slice in bounds. -/
theorem metadata_sound (hr : Run (system δ ρ) h s) :
    (s.buf.writeSlot = 0 ∨ s.buf.writeSlot = 1) ∧
    (∀ slot len, index s.buf.frameLens slot = .ok len → len ≤ JPEG_FRAME_SIZE) ∧
    (∀ slot len, ∃ buf', s.buf.storeFrameLen slot len = .ok buf') ∧
    (∀ slot, ∃ buf', s.buf.storeWriteSlot slot = .ok buf') ∧
    (∃ slot, s.buf.currentReadSlot = .ok slot) ∧
    ∀ r slot, s.reading r = some slot →
      index s.buf.frameLens slot = .ok (validLen (lastStored slot h)) ∧
      s.buf.frameOf s.ring slot =
        .ok (if validLen (lastStored slot h) = 0 then .empty
          else .of slot (validLen (lastStored slot h))) := by
  have hi : Inv h s := run_inv hr
  have hw := hi.writeSlot
  refine ⟨?_, fun slot len hl => ?_, fun slot len => ⟨_, storeFrameLen_ok _ slot len⟩,
    fun slot => ⟨_, storeWriteSlot_ok _ slot⟩, ⟨_, currentReadSlot_ok hw⟩, fun r slot hread => ?_⟩
  · rw [DMA_RING_DEPTH] at hw
    omega
  · by_cases hs : slot < DMA_RING_DEPTH
    · rw [hi.frameLens slot hs, Except.ok.injEq] at hl
      rw [← hl]
      exact validLen_le _
    · simp [index, hs] at hl
  · have hs := hi.reading r slot hread
    exact ⟨hi.frameLens slot hs, frameOf_ok hs (hi.frameLens slot hs) (validLen_le _)⟩

end

/-- A driver stores the length of slot 3, which is slot 1, and then a reader loads
`write_slot`, still 0: it reads that length, of slot 1. -/
theorem stale_write_slot : ∃ h s, Run (@system Unit Unit _ _ esp32) h s ∧
    s.reading () = some 1 ∧ s.buf.frameOf s.ring 1 = .ok (.of 1 20) := by
  let _ := esp32
  have h₀ : Run (system Unit Unit) _ _ :=
    .next (.start rfl) (.storeFrameLen (d := ()) rfl (storeFrameLen_ok _ 3 20))
  have h₁ := h₀.next (.loadWriteSlot (r := ()) rfl (currentReadSlot_ok (by decide)))
  refine ⟨_, _, h₁, rfl, ?_⟩
  exact ((metadata_sound h₁).2.2.2.2.2 () 1 rfl).2

end SrkOS.Proof.CameraAtomics
