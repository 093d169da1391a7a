import SrkOS.Proof.Camera.Ring

/-!
# Reading and streaming frames

`frame_latest`: however far the driver's counter has wrapped, readers see the
latest complete frame as it was when it was completed.

`untorn_iff`: a frame being sent is not torn exactly as long as no frame is
completed meanwhile. Nothing in the ring records that a slot is on loan, and one
completion makes the driver go on with it (`frame_torn`).
-/

namespace SrkOS.Proof.Camera

open Framework SrkOS.Impl SrkOS.Impl.Camera

/-- The index a driver passes that counts its frames in a `usize` of `w` bits. -/
def countedSlot (w k : Nat) : Nat := k % 2 ^ w

theorem countedSlot_mod {w : Nat} (hw : 1 ≤ w) (k : Nat) :
    countedSlot w k % DMA_RING_DEPTH = k % DMA_RING_DEPTH :=
  Nat.mod_mod_of_dvd _ (Nat.pow_dvd_pow (m := 1) 2 hw)

/-- The index a driver passes that counts its slots. -/
def alternateSlot (k : Nat) : Nat := k % DMA_RING_DEPTH

theorem alternateSlot_mod (k : Nat) : alternateSlot k % DMA_RING_DEPTH = k % DMA_RING_DEPTH :=
  Nat.mod_mod _ _

/-- A byte the DMA engine has written to the start of a slot. -/
theorem take_one_write (ring : JpegRing) {slot : Nat} (h : slot < DMA_RING_DEPTH) (byte : UInt8) :
    ((ring.write slot 0 byte).slot slot).take 1 = [byte] := by
  rw [JpegRing.slot, JpegRing.write, dif_pos h, dif_pos h, Vector.getElem_set_self]
  exact take_one_setIfInBounds _ (by decide) byte

/-- A run goes on with a frame: the byte it starts with, and its completion. -/
theorem run_frame [Usize] {slotArg : Nat → Nat} {h : List (State × Action)} {s : State}
    (hr : Run (system slotArg) h s) (byte : UInt8) (len : Nat) :
    ∃ buf', Run (system slotArg)
      (({ s with ring := s.ring.write s.fillSlot 0 byte }, .complete len) ::
        (s, .write 0 byte) :: h)
      ⟨buf', s.ring.write s.fillSlot 0 byte, s.frame + 1,
        some ⟨(s.ring.write s.fillSlot 0 byte).slot s.fillSlot, len⟩, s.loan⟩ :=
  ⟨_, (hr.next (.write s 0 byte)).next (.complete (markFrameReady_ok _ _ _))⟩

/-- The first frame is in slot 0. -/
theorem run_first_frame [Usize] (slotArg : Nat → Nat) (byte : UInt8) (len : Nat) :
    ∃ buf', Run (system slotArg)
      [({ initial with ring := initial.ring.write 0 0 byte }, .complete len),
        (initial, .write 0 byte)]
      ⟨buf', initial.ring.write 0 0 byte, 1, some ⟨(initial.ring.write 0 0 byte).slot 0, len⟩,
        none⟩ :=
  run_frame (.start rfl) byte len

theorem min_one_frameSize : min 1 JPEG_FRAME_SIZE = 1 := by decide

/-- In every run with a driver that passes its own wrapping frame counter: no
method panics, the slot being filled is not the one read, and what is read is
the valid part of the latest complete frame, as it was at its completion. -/
theorem frame_latest [Usize] {w : Nat} (hw : 1 ≤ w) {h : List (State × Action)} {s : State}
    (hr : Run (system (countedSlot w)) h s) :
    (∀ len, ∃ buf', s.buf.markFrameReady (countedSlot w s.frame) len = .ok buf') ∧
    (∃ slot, s.buf.currentReadSlot = .ok slot ∧ slot ≠ s.fillSlot) ∧
    s.buf.currentFrameLen =
      .ok (match s.last with
        | none => 0
        | some c => min c.len JPEG_FRAME_SIZE) ∧
    ∃ sl, s.buf.currentFrameFrom s.ring = .ok sl ∧
      sl.read s.ring.slot =
        match s.last with
        | none => []
        | some c => c.bytes.take (min c.len JPEG_FRAME_SIZE) := by
  have hi : Inv s := (refines (countedSlot_mod hw)).inv_run hr
  refine ⟨fun len => ⟨_, markFrameReady_ok _ _ len⟩, ⟨_, hi.currentReadSlot, ?_⟩, ?_, ?_⟩
  · rw [State.fillSlot, DMA_RING_DEPTH]; omega
  · rw [hi.currentFrameLen, lastLen]
    cases s.last <;> rfl
  · obtain ⟨sl, hsl, hread⟩ := currentFrameFrom_latest (countedSlot_mod hw) hr
    refine ⟨sl, hsl, ?_⟩
    rw [hread]
    cases s.last <;> rfl

/-- A driver's counter of one bit, and three frames: the third one is in the slot of the
first. -/
theorem frame_latest_wrapped : ∃ h s, Run (@system esp32 (countedSlot 1)) h s ∧ s.frame = 3 ∧
    ∃ sl, @DmaRingBuffer.currentFrameFrom esp32 s.buf s.ring = .ok sl ∧
      sl.read s.ring.slot = [0xCC] := by
  let _ := esp32
  have h₀ : Run (system (countedSlot 1)) [] initial := .start rfl
  obtain ⟨buf₁, h₁⟩ := run_frame h₀ 0xAA 1
  obtain ⟨buf₂, h₂⟩ := run_frame h₁ 0xBB 1
  obtain ⟨buf₃, h₃⟩ := run_frame h₂ 0xCC 1
  obtain ⟨sl, hsl, hread⟩ := (frame_latest (by decide) h₃).2.2.2
  refine ⟨_, _, h₃, rfl, sl, hsl, ?_⟩
  simp only [min_one_frameSize] at hread
  rw [hread]
  exact take_one_write _ (fillSlot_lt _) 0xCC

/-! ## Streaming -/

/-- The slice being sent is not in the slot being filled; it still shows the
frame it was obtained from, and so does every byte sent. -/
def Untorn (s : State) : Prop :=
  ∀ l, s.loan = some l → s.fillSlot ≠ l.buf ∧ l.Intact s.ring.slot

/-- The step does not complete a frame while a slice is being sent. -/
def NoCompletion (s : State) (a : Action) : Prop := (∃ len, a = .complete len) → s.loan = none

theorem noCompletion_of_loan {s : State} {a : Action} (h : s.loan = none) : NoCompletion s a :=
  fun _ => h

theorem untorn_iff_intact {s : State} (hi : Inv s) : (abs s).Intact ↔ Untorn s := by
  simp only [DoubleBuffer.State.Intact, Untorn, abs, Option.map_eq_some_iff, forall_exists_index,
    and_imp, forall_apply_eq_imp_iff₂]
  refine forall₂_congr fun l hl => and_congr ?_ (Loan.intact_map (abs_mem (hi.loan l hl)))
  rw [not_iff_not]
  refine ⟨fun he => ?_, congrArg slotBit⟩
  rw [← toNat_slotBit (fillSlot_lt s), ← toNat_slotBit (hi.loan l hl)]
  exact congrArg Bool.toNat he

theorem noCompletion_iff_quiet (s : State) (a : Action) :
    DoubleBuffer.Quiet (abs s) (act a) ↔ NoCompletion s a := by
  simp only [DoubleBuffer.Quiet, NoCompletion, abs, Option.map_eq_none_iff]
  cases a <;> simp only [act, reduceCtorEq, exists_false, false_implies, exists_eq', true_implies,
    DoubleBuffer.Action.complete.injEq, Action.complete.injEq]

/-- In every run, the frames being sent stay untorn, in all of its states,
exactly when no frame is completed while one is being sent. -/
theorem untorn_iff [Usize] {h : List (State × Action)} {s : State}
    (hr : Run (system alternateSlot) h s) : Always Untorn h s ↔ Took NoCompletion h :=
  (refines alternateSlot_mod).always_took_iff (fun _ => untorn_iff_intact) noCompletion_iff_quiet
    (fun _ _ => DoubleBuffer.always_intact_iff) hr

/-- The first byte of a frame is lent to `wifi_task`. -/
theorem run_loan [Usize] (byte : UInt8) : ∃ buf' ring last h,
    Run (system alternateSlot) h ⟨buf', ring, 1, last, some ⟨0, 1, [byte], []⟩⟩ ∧
    Loan.send ring.slot ⟨0, 1, [byte], []⟩ = some ⟨0, 1, [byte], [byte]⟩ ∧
    Took NoCompletion h := by
  obtain ⟨buf', hr⟩ := run_first_frame alternateSlot byte 1
  have hi : Inv _ := (refines alternateSlot_mod).inv_run hr
  have hacq : Step alternateSlot _ .acquire _ := .acquire rfl hi.currentFrameFrom
  simp only [lastLen, Capture.latestLen, Capture.clamp, Option.map_some, Option.getD_some,
    min_one_frameSize, Nat.one_ne_zero, if_false, Loan.ofSlice, show (1 + 1) % DMA_RING_DEPTH = 0 from rfl,
    take_one_write _ (show 0 < DMA_RING_DEPTH by decide)] at hacq
  exact ⟨buf', _, _, _, hr.next hacq, Loan.send_one (take_one_write _ (by decide) _) _,
    took_cons.mpr ⟨noCompletion_of_loan rfl,
      took_cons.mpr ⟨noCompletion_of_loan rfl,
        took_cons.mpr ⟨noCompletion_of_loan rfl, took_nil _⟩⟩⟩⟩

/-- A byte of a frame is lent, and sent as it was. -/
theorem byte_sent : ∃ h s, Run (@system esp32 alternateSlot) h s ∧
    (∃ l, s.loan = some l ∧ l.sent = [0xAA]) ∧ Always Untorn h s := by
  let _ := esp32
  obtain ⟨buf', ring, last, h, hr, hsend, ht⟩ := run_loan 0xAA
  have hr' := hr.next (.transmit rfl hsend)
  refine ⟨_, _, hr', ⟨_, rfl, rfl⟩, (untorn_iff hr').mpr (took_cons.mpr ⟨?_, ht⟩)⟩
  simp [NoCompletion]

/-- A byte of a frame is lent; a second frame, of length 0, is completed, and
the third one overwrites the byte before it is sent. -/
theorem frame_torn : ∃ h s, Run (@system esp32 alternateSlot) h s ∧
    (∃ l, s.loan = some l ∧ l.buf = s.fillSlot ∧ l.lent = [0xAA] ∧ l.sent = [0xBB]) ∧
    ¬ Always Untorn h s := by
  let _ := esp32
  obtain ⟨buf', ring, last, h, hr, -, -⟩ := run_loan 0xAA
  obtain ⟨h₂, s₂, hr₂, hring, hframe, hloan⟩ : ∃ h₂ s₂, Run (system alternateSlot) h₂ s₂ ∧
      s₂.ring = ring ∧ s₂.frame = 2 ∧ s₂.loan = some ⟨0, 1, [0xAA], []⟩ :=
    ⟨_, _, hr.next (.complete (markFrameReady_ok _ _ 0)), rfl, rfl, rfl⟩
  have hfill : s₂.fillSlot = 0 := by rw [State.fillSlot, hframe]; rfl
  have hw := hr₂.next (.write s₂ 0 0xBB)
  rw [hfill, hring] at hw
  have ht := hw.next (.transmit hloan (Loan.send_one (take_one_write ring (by decide) _) _))
  exact ⟨_, _, ht, ⟨_, rfl, hfill.symm, rfl, rfl⟩, fun hu => (hu.last _ rfl).1 hfill⟩

end SrkOS.Proof.Camera
