import SrkOS.Proof.Camera.Atomics
import SrkOS.Proof.Camera.Stream

/-!
# Reads overlapped by publications

One driver, as the ring is meant to be used: the DMA engine fills the slot
`write_slot`, the driver calls `mark_frame_ready` for that slot once it is filled, and
the engine goes on when the call has returned (`Disciplined`). A frame is published by
the second store of the call. A reader gets a slot and the length of the frame that was
in it last (`Kept`); but it has read its slot before, and each frame published
meanwhile moves the engine to the other slot. So what it gets is what a call in one
step would have got, a whole frame, if an even number of frames was published between
its two loads; if an odd number was, it gets the slot that is being filled
(`reads_whole`).
-/

namespace SrkOS.Proof.CameraAtomics

open Framework SrkOS.Impl SrkOS.Impl.CameraAtomics SrkOS.Proof.Camera

variable {ρ : Type}

/-- The engine writes into the slot `write_slot`, and not during `mark_frame_ready`,
which is called for that slot. -/
def Disciplined (s : State Unit ρ) (a : Action Unit ρ) : Prop :=
  (∀ slot i byte, a = .write slot i byte → slot = s.buf.writeSlot ∧ s.marking () = none) ∧
  ∀ d slot len, a = .storeFrameLen d slot len → slot % DMA_RING_DEPTH = s.buf.writeSlot

/-- The frame that a step completes in `slot`. -/
def capturedBy (slot : Nat) (s : State Unit ρ) : Action Unit ρ → Option (Capture UInt8)
  | .storeFrameLen _ slot' len =>
    if slot' % DMA_RING_DEPTH = slot then some ⟨s.ring.slot slot, len⟩ else none
  | _ => none

/-- The frame completed in `slot` last. -/
def lastCapture (slot : Nat) (h : List (State Unit ρ × Action Unit ρ)) : Option (Capture UInt8) :=
  h.findSome? fun e => capturedBy slot e.1 e.2

/-- The valid part of the frame completed in `slot` last. -/
def frameIn (slot : Nat) (h : List (State Unit ρ × Action Unit ρ)) : List UInt8 :=
  Capture.latest ((lastCapture slot h).map (Capture.clamp JPEG_FRAME_SIZE))

/-- The frames published since the reader `r` loaded its slot. -/
def publishedSince [DecidableEq ρ] (r : ρ) : List (State Unit ρ × Action Unit ρ) → Nat
  | [] => 0
  | (_, .loadWriteSlot r') :: h => if r' = r then 0 else publishedSince r h
  | (_, .storeWriteSlot _) :: h => publishedSince r h + 1
  | _ :: h => publishedSince r h

/-- A slot that is not being filled holds the frame completed in it last; and a reader's
slot is being filled if an odd number of frames was published since. -/
structure Kept [DecidableEq ρ] (h : List (State Unit ρ × Action Unit ρ)) (s : State Unit ρ) :
    Prop where
  marking : ∀ slot, s.marking () = some slot → slot % DMA_RING_DEPTH = s.buf.writeSlot
  captures : ∀ slot, slot ≠ s.buf.writeSlot ∨ s.marking () ≠ none →
    ∀ c, lastCapture slot h = some c → s.ring.slot slot = c.bytes
  reading : ∀ r slot, s.reading r = some slot →
    s.buf.writeSlot = (slot + 1 + publishedSince r h) % DMA_RING_DEPTH

theorem disciplined_write {s : State Unit ρ} {slot : Nat} (hslot : slot = s.buf.writeSlot)
    (hm : s.marking () = none) (i : Nat) (byte : UInt8) : Disciplined s (.write slot i byte) := by
  refine ⟨fun slot' i' byte' he => ?_, by simp⟩
  cases he
  exact ⟨hslot, hm⟩

theorem disciplined_store {s : State Unit ρ} {slot : Nat}
    (hslot : slot % DMA_RING_DEPTH = s.buf.writeSlot) (len : Nat) :
    Disciplined s (.storeFrameLen () slot len) := by
  refine ⟨by simp, fun d slot' len' he => ?_⟩
  cases he
  exact hslot

theorem lastCapture_cons (slot : Nat) (s : State Unit ρ) (a : Action Unit ρ)
    (h : List (State Unit ρ × Action Unit ρ)) :
    lastCapture slot ((s, a) :: h) = (capturedBy slot s a).or (lastCapture slot h) := by
  rw [lastCapture, List.findSome?_cons]
  cases capturedBy slot s a <;> rfl

/-- The length stored last for a slot is that of the frame completed in it last. -/
theorem validLen_lastStored (slot : Nat) (h : List (State Unit ρ × Action Unit ρ)) :
    validLen (lastStored slot h) =
      Capture.latestLen ((lastCapture slot h).map (Capture.clamp JPEG_FRAME_SIZE)) := by
  have hlen : lastStored slot h = (lastCapture slot h).map Capture.len := by
    induction h with
    | nil => rfl
    | cons e h ih =>
      obtain ⟨s, a⟩ := e
      rw [lastStored_cons, lastCapture_cons, ih]
      cases a with
      | storeFrameLen d slot' len =>
        simp only [storedBy, capturedBy]
        split <;> rfl
      | write | storeWriteSlot | loadWriteSlot | loadFrameLen => rfl
  rw [hlen]
  cases lastCapture slot h <;> rfl

section

variable [DecidableEq ρ] [Usize] {h : List (State Unit ρ × Action Unit ρ)} {s s' : State Unit ρ}
  {a : Action Unit ρ}

theorem Kept.step (hk : Kept h s) (hw : s.buf.writeSlot < DMA_RING_DEPTH) (hd : Disciplined s a)
    (hs : Step s a s') : Kept ((s, a) :: h) s' := by
  have hw' : s.buf.writeSlot < 2 := hw
  cases hs with
  | write slot i byte =>
    obtain ⟨rfl, hm⟩ := hd.1 slot i byte rfl
    refine ⟨hk.marking, fun slot hslot c hc => ?_, hk.reading⟩
    have hne : slot ≠ s.buf.writeSlot := hslot.resolve_right fun hn => hn hm
    rw [slot_write_ne _ hne]
    exact hk.captures slot hslot c hc
  | @storeFrameLen d slot' len buf' hm hok =>
    rw [storeFrameLen_ok, Except.ok.injEq] at hok
    subst hok
    have hslot' := hd.2 d slot' len rfl
    refine ⟨fun slot hslot => ?_, fun slot _ c hc => ?_, hk.reading⟩
    · simp only [Function.update_self, Option.some.injEq] at hslot
      rw [← hslot]
      exact hslot'
    · rw [lastCapture_cons, capturedBy] at hc
      by_cases he : slot' % DMA_RING_DEPTH = slot
      · rw [if_pos he, Option.some_or, Option.some.injEq] at hc
        rw [← hc]
      · rw [if_neg he, Option.none_or] at hc
        exact hk.captures slot (.inl fun hn => he (hslot'.trans hn.symm)) c hc
  | @storeWriteSlot d slot' buf' hm hok =>
    rw [storeWriteSlot_ok, Except.ok.injEq] at hok
    subst hok
    have hslot' := hk.marking slot' hm
    refine ⟨fun slot hslot => ?_, fun slot _ c hc => ?_, fun r slot hr => ?_⟩
    · simp at hslot
    · -- the engine was held up during the call
      exact hk.captures slot (.inr (by rw [hm]; simp)) c hc
    · have hread := hk.reading r slot hr
      simp only [publishedSince, DMA_RING_DEPTH] at hread hslot' ⊢
      omega
  | @loadWriteSlot r slot hr hok =>
    rw [currentReadSlot_ok hw, Except.ok.injEq] at hok
    refine ⟨hk.marking, hk.captures, fun r' slot' hr' => ?_⟩
    by_cases he : r = r'
    · subst he
      simp only [Function.update_self, Option.some.injEq] at hr'
      simp only [publishedSince, if_true, ← hr', ← hok, DMA_RING_DEPTH]
      omega
    · simp only [Function.update_of_ne (Ne.symm he)] at hr'
      simp only [publishedSince, if_neg he]
      exact hk.reading r' slot' hr'
  | @loadFrameLen r slot sl hr hok =>
    refine ⟨hk.marking, hk.captures, fun r' slot' hr' => ?_⟩
    by_cases he : r' = r
    · simp [he] at hr'
    · simp only [Function.update_of_ne he] at hr'
      exact hk.reading r' slot' hr'

theorem run_kept (hr : Run (system Unit ρ) h s) (ht : Took Disciplined h) : Kept h s := by
  induction hr with
  | start hi =>
    rw [hi]
    exact ⟨nofun, nofun, nofun⟩
  | next hr hs ih =>
    obtain ⟨hd, ht⟩ := took_cons.mp ht
    exact (ih ht).step (run_inv hr).writeSlot hd hs

omit [Usize] in
/-- What a slice shows of a slot that holds its last frame. -/
theorem Kept.read_eq (hk : Kept h s) {slot : Nat}
    (hslot : slot ≠ s.buf.writeSlot ∨ s.marking () ≠ none) {sl : Slice Nat}
    (hsl : sl = if validLen (lastStored slot h) = 0 then .empty
      else .of slot (validLen (lastStored slot h))) :
    sl.read s.ring.slot = frameIn slot h := by
  rw [validLen_lastStored] at hsl
  rw [hsl, frameIn]
  cases hc : lastCapture slot h with
  | none => rfl
  | some c =>
    have hbytes := hk.captures slot hslot c hc
    show (if min c.len JPEG_FRAME_SIZE = 0 then Slice.empty
      else .of slot (min c.len JPEG_FRAME_SIZE)).read s.ring.slot = c.bytes.take (min c.len _)
    by_cases h0 : min c.len JPEG_FRAME_SIZE = 0
    · rw [if_pos h0, h0]
      rfl
    · rw [if_neg h0, Slice.read_of, hbytes]

/-- In every run of one driver and any number of readers: where a reader is about to
load the length of its slot, it gets what a call in one step would get, the frame
completed in its slot last, if an even number of frames was published since its first
load; if an odd number was, its slot is the one that is being filled, and the engine
can overwrite what it gets. -/
theorem reads_whole (hr : Run (system Unit ρ) h s) (ht : Took Disciplined h) {r : ρ} {slot : Nat}
    (hread : s.reading r = some slot) :
    ∃ sl, s.buf.frameOf s.ring slot = .ok sl ∧
      (publishedSince r h % 2 = 0 →
        s.buf.currentFrameFrom s.ring = .ok sl ∧ sl.read s.ring.slot = frameIn slot h) ∧
      (publishedSince r h % 2 = 1 →
        slot = s.buf.writeSlot ∧
        (s.marking () = none → frameIn slot h ≠ [] →
          ∃ byte, Disciplined s (.write slot 0 byte) ∧
            sl.read (s.ring.write slot 0 byte).slot ≠ frameIn slot h)) := by
  have hi : Inv h s := run_inv hr
  have hk := run_kept hr ht
  have hw := hi.writeSlot
  have hslot := hi.reading r slot hread
  have hparity := hk.reading r slot hread
  have hframe : s.buf.frameOf s.ring slot = .ok (if validLen (lastStored slot h) = 0 then .empty
      else .of slot (validLen (lastStored slot h))) :=
    frameOf_ok hslot (hi.frameLens slot hslot) (validLen_le _)
  refine ⟨_, hframe, fun heven => ?_, fun hodd => ?_⟩
  · have hcur : s.buf.currentReadSlot = .ok slot := by
      rw [currentReadSlot_ok hw, Except.ok.injEq]
      simp only [DMA_RING_DEPTH] at hw hslot hparity ⊢
      omega
    have hne : slot ≠ s.buf.writeSlot := by
      simp only [DMA_RING_DEPTH] at hw hslot hparity
      omega
    refine ⟨?_, hk.read_eq (.inl hne) rfl⟩
    simp only [DmaRingBuffer.currentFrameFrom, hcur, bind, Except.bind, hframe]
  · have heq : slot = s.buf.writeSlot := by
      simp only [DMA_RING_DEPTH] at hw hslot hparity
      omega
    refine ⟨heq, fun hm hne => ?_⟩
    obtain ⟨b, rest, hb⟩ := List.exists_cons_of_ne_nil hne
    obtain ⟨byte, hbyte⟩ : ∃ byte : UInt8, byte ≠ b := by
      by_cases h0 : b = 0
      · exact ⟨1, by rw [h0]; decide⟩
      · exact ⟨0, fun he => h0 he.symm⟩
    refine ⟨byte, disciplined_write heq hm 0 byte, fun hsame => hbyte ?_⟩
    -- the first byte shown is the one written
    have hlen : validLen (lastStored slot h) ≠ 0 := by
      intro h0
      rw [h0, if_pos rfl, hb] at hsame
      simp [Slice.read] at hsame
    rw [if_neg hlen, Slice.read_of, hb] at hsame
    have htake := congrArg (List.take 1) hsame
    rw [List.take_take, Nat.min_eq_left (by omega), take_one_write _ hslot] at htake
    simpa using htake

end

/-- A reader that nothing overlaps gets the frame just published. -/
theorem whole_frame : ∃ h s, Run (@system Unit Unit _ _ esp32) h s ∧ s.reading () = some 0 ∧
    ∃ sl, s.buf.frameOf s.ring 0 = .ok sl ∧ sl.read s.ring.slot = [0xAA] := by
  let _ := esp32
  have h₁ : Run (system Unit Unit) _ _ := .next (.start rfl) (.write _ 0 0 0xAA)
  have h₂ := h₁.next (.storeFrameLen (d := ()) rfl (storeFrameLen_ok _ 0 1))
  have h₃ := h₂.next (.storeWriteSlot (d := ()) rfl (storeWriteSlot_ok _ 0))
  have h₄ := h₃.next (.loadWriteSlot (r := ()) rfl (currentReadSlot_ok (by decide)))
  obtain ⟨sl, hsl, heven, -⟩ := reads_whole h₄ (r := ())
    (took_cons.mpr ⟨⟨by simp, by simp⟩, took_cons.mpr ⟨⟨by simp, by simp⟩,
      took_cons.mpr ⟨disciplined_store rfl 1,
        took_cons.mpr ⟨disciplined_write rfl rfl 0 0xAA, took_nil _⟩⟩⟩⟩)
    (show _ = some 0 from rfl)
  refine ⟨_, _, h₄, rfl, sl, hsl, (heven rfl).2.trans ?_⟩
  simp only [frameIn, lastCapture_cons, capturedBy, Option.none_or, Nat.zero_mod, if_true,
    Option.some_or, Option.map_some, Capture.clamp, Capture.latest, Capture.valid,
    min_one_frameSize, Option.getD_some]
  exact take_one_write _ (by decide) _

end SrkOS.Proof.CameraAtomics
