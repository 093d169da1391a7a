import SrkOS.Framework.SharedBuffer
import SrkOS.Framework.Simulation
import SrkOS.Impl.CameraStreams
import SrkOS.Proof.Camera.Reads

/-!
# Video streams, access by access

With the accesses to the metadata as steps, and any number of connections that stream at
the same time, the ring is a double buffer with many consumers (`refines`). So the frames
that a connection sends are not torn exactly as long as no frame is published while it
sends one, and it obtains none from the slot that is being filled (`streams_untorn_iff`);
and then what it sends are the frames that were the latest when it obtained them, whole
and one after the other (`frames_streamed`). A connection gets the slot being filled if an
odd number of frames was published since it loaded its slot (`filled_iff_odd`).
-/

namespace SrkOS.Proof.CameraStreams

open Framework SrkOS.Impl SrkOS.Impl.CameraStreams SrkOS.Proof.Camera SrkOS.Proof.CameraAtomics

variable {ρ : Type}

/-- The valid number of bytes of a frame, 0 for none. -/
def lastLen (last : Option (Capture UInt8)) : Nat :=
  Capture.latestLen (last.map (Capture.clamp JPEG_FRAME_SIZE))

/-! ## The invariant -/

structure Inv (s : State ρ) : Prop where
  writeSlot : s.buf.writeSlot < DMA_RING_DEPTH
  /-- The slot that is not being filled has the length of the frame published last. -/
  frameLen : index s.buf.frameLens ((s.buf.writeSlot + 1) % DMA_RING_DEPTH) = .ok (lastLen s.last)
  /-- Within `mark_frame_ready`, the slot that was filled holds the frame completed, and
  has its length. -/
  marking : ∀ slot, s.marking () = some slot → slot % DMA_RING_DEPTH = s.buf.writeSlot ∧
    ∃ c, s.completed = some c ∧ c.bytes = s.ring.slot s.buf.writeSlot ∧
      index s.buf.frameLens s.buf.writeSlot = .ok (min c.len JPEG_FRAME_SIZE)
  reading : ∀ r slot, s.reading r = some slot → slot < DMA_RING_DEPTH
  exclusive : Exclusive s.reading s.loan
  loan : ∀ r l, s.loan r = some l → l.buf < DMA_RING_DEPTH

theorem inv_initial : Inv (initial ρ) :=
  ⟨show 0 < 2 by omega, rfl, nofun, nofun, fun _ => .inl rfl, nofun⟩

/-- A slot that is not being filled is the other one. -/
theorem Inv.reading_eq {s : State ρ} (h : Inv s) {r : ρ} {slot : Nat}
    (hr : s.reading r = some slot) (hne : slot ≠ s.buf.writeSlot) :
    slot = (s.buf.writeSlot + 1) % DMA_RING_DEPTH := by
  have hw := h.writeSlot
  have hlt := h.reading r slot hr
  simp only [DMA_RING_DEPTH] at hw hlt ⊢
  omega

/-- The slots of what is returned are those asked for. -/
theorem buf_of_frameOf {buf : DmaRingBuffer} {ring : JpegRing} {slot : Nat} {sl : Slice Nat}
    (h : buf.frameOf ring slot = .ok sl) :
    sl = .empty ∨ ∃ len, index buf.frameLens slot = .ok len ∧ len ≠ 0 ∧ sl = .of slot len := by
  simp only [DmaRingBuffer.frameOf, bind, Except.bind] at h
  cases hl : index buf.frameLens slot with
  | error e => simp [hl] at h
  | ok len =>
    rw [hl] at h
    by_cases h0 : len = 0
    · simp only [h0, if_true, pure, Except.pure, Except.ok.injEq] at h
      exact .inl h.symm
    · simp only [h0, if_false] at h
      cases hf : index ring slot with
      | error e => simp [hf] at h
      | ok frame =>
        simp only [hf, sliceTo] at h
        split at h
        · rw [Except.ok.injEq] at h
          exact .inr ⟨len, rfl, h0, h.symm⟩
        · simp at h

section

variable [DecidableEq ρ] [Usize] {s s' : State ρ} {a : Action ρ}

theorem Inv.step (h : Inv s) (hs : Step s a s') : Inv s' := by
  have hw : s.buf.writeSlot < 2 := h.writeSlot
  cases hs with
  | write i byte hm =>
    exact ⟨h.writeSlot, h.frameLen, by simp [hm], h.reading, h.exclusive, h.loan⟩
  | @storeFrameLen slot len buf' hm hslot hok =>
    rw [storeFrameLen_ok, Except.ok.injEq] at hok
    subst hok
    refine ⟨h.writeSlot, ?_, fun slot' hslot' => ?_, h.reading, h.exclusive, h.loan⟩
    · show index _ ((s.buf.writeSlot + 1) % DMA_RING_DEPTH) = _
      rw [index_stored _ (mod_depth_lt _), if_neg, h.frameLen]
      simp only [DMA_RING_DEPTH] at hslot ⊢
      omega
    · simp only [Function.update_self, Option.some.injEq] at hslot'
      subst hslot'
      refine ⟨hslot, _, rfl, rfl, ?_⟩
      show index _ s.buf.writeSlot = _
      rw [index_stored _ h.writeSlot, if_pos hslot]
  | @storeWriteSlot slot buf' hm hok =>
    rw [storeWriteSlot_ok, Except.ok.injEq] at hok
    subst hok
    obtain ⟨hslot, c, hc, -, hlen⟩ := h.marking slot hm
    refine ⟨mod_depth_lt _, ?_, by simp, h.reading, h.exclusive, h.loan⟩
    have hnext : ((slot % DMA_RING_DEPTH + 1) % DMA_RING_DEPTH + 1) % DMA_RING_DEPTH =
        s.buf.writeSlot := by
      simp only [DMA_RING_DEPTH] at hslot ⊢
      omega
    simp only [hnext, hlen, hc]
    rfl
  | @loadWriteSlot r slot hl hr hok =>
    refine ⟨h.writeSlot, h.frameLen, h.marking, forall_update h.reading r fun slot' he => ?_,
      h.exclusive.call hl _, h.loan⟩
    rw [← Option.some.inj he]
    exact currentReadSlot_lt h.writeSlot hok
  | @loadFrameLen r slot sl hr hok =>
    refine ⟨h.writeSlot, h.frameLen, h.marking, forall_update h.reading r (by simp),
      h.exclusive.take r _, forall_update h.loan r fun l hl => ?_⟩
    rcases buf_of_frameOf hok with rfl | ⟨len, -, -, rfl⟩
    · simp [Loan.ofSlice] at hl
    · rw [Loan.buf_of_ofSlice hl]
      exact h.reading r slot hr
  | @transmit r l l' hl hl' =>
    have hr : s.reading r = none := (h.exclusive r).resolve_right (by simp [hl])
    refine ⟨h.writeSlot, h.frameLen, h.marking, h.reading, h.exclusive.hold hr _,
      forall_update h.loan r fun l₁ hl₁ => ?_⟩
    rw [← Option.some.inj hl₁, Loan.buf_of_send hl']
    exact h.loan r l hl
  | release r =>
    exact ⟨h.writeSlot, h.frameLen, h.marking, h.reading, h.exclusive.drop r,
      forall_update h.loan r (by simp)⟩

end

/-! ## Refinement -/

/-- The slice that the call of `r` is about to return. -/
def obtained (s : State ρ) (r : ρ) : Option (Slice Nat) :=
  (s.reading r).bind fun slot => (s.buf.frameOf s.ring slot).toOption

theorem obtained_eq {s : State ρ} {r : ρ} {slot : Nat} {sl : Slice Nat}
    (hr : s.reading r = some slot) (h : s.buf.frameOf s.ring slot = .ok sl) :
    obtained s r = some sl := by
  rw [obtained, hr, Option.bind_some, h]
  rfl

/-- The double buffer of the pipeline. -/
def abs (s : State ρ) : SharedBuffer.State ρ UInt8 where
  mem b := s.ring.slot b.toNat
  fill := slotBit s.buf.writeSlot
  last := s.last.map (Capture.clamp JPEG_FRAME_SIZE)
  loan r := (s.loan r).map (Loan.map slotBit)

/-- A frame is captured by the second store of its `mark_frame_ready`, and obtained by
the second load of `current_frame`. -/
def act (s : State ρ) : Action ρ → Option (SharedBuffer.Action ρ)
  | .access (.write _ _ _) => some .write
  | .access (.storeFrameLen _ _ _) => none
  | .access (.storeWriteSlot _) => s.completed.map fun c => .complete (min c.len JPEG_FRAME_SIZE)
  | .access (.loadWriteSlot _) => none
  | .access (.loadFrameLen r) => (obtained s r).map fun sl => .acquire r (sl.map slotBit)
  | .transmit r => some (.transmit r)
  | .release r => some (.release r)

theorem abs_mem {s : State ρ} {slot : Nat} (h : slot < DMA_RING_DEPTH) :
    (abs s).mem (slotBit slot) = s.ring.slot slot := by
  simp only [abs, toNat_slotBit h]

/-- A write to a slot is one to its buffer. -/
theorem mem_write (ring : JpegRing) {slot : Nat} (h : slot < DMA_RING_DEPTH) (i : Nat)
    (byte : UInt8) :
    (fun b : Bool => (ring.write slot i byte).slot b.toNat) =
      Function.update (fun b : Bool => ring.slot b.toNat) (slotBit slot)
        ((ring.write slot i byte).slot slot) := by
  funext b
  rw [Function.update_apply]
  by_cases hb : b = slotBit slot
  · rw [if_pos hb, hb, toNat_slotBit h]
  · rw [if_neg hb]
    exact slot_write_ne _ (fun he => hb (by rw [← he, slotBit_toNat])) _ _

/-- A slice of the ring, lent. -/
theorem abs_ofSlice {s : State ρ} {slot : Nat} {sl : Slice Nat} (hs : slot < DMA_RING_DEPTH)
    (h : s.buf.frameOf s.ring slot = .ok sl) :
    (Loan.ofSlice s.ring.slot sl).map (Loan.map slotBit) =
      Loan.ofSlice (abs s).mem (sl.map slotBit) := by
  rcases buf_of_frameOf h with rfl | ⟨len, -, -, rfl⟩
  · rfl
  · exact Loan.map_ofSlice (abs_mem hs)

section

variable [DecidableEq ρ] [Usize] {s s' : State ρ} {a : Action ρ}

theorem Inv.abs_step (h : Inv s) (hs : Step s a s') :
    Moves (SharedBuffer.system ρ UInt8) (abs s) (act s a) (abs s') := by
  cases hs with
  | write i byte hm =>
    have hstep := SharedBuffer.Step.write (abs s)
      ((s.ring.write s.buf.writeSlot i byte).slot s.buf.writeSlot)
    simp only [abs, ← mem_write _ h.writeSlot] at hstep
    exact hstep
  | storeFrameLen hm hslot hok =>
    rw [storeFrameLen_ok, Except.ok.injEq] at hok
    subst hok
    exact rfl
  | @storeWriteSlot slot buf' hm hok =>
    rw [storeWriteSlot_ok, Except.ok.injEq] at hok
    subst hok
    obtain ⟨hslot, c, hc, hbytes, -⟩ := h.marking slot hm
    have hstep := SharedBuffer.Step.complete (abs s) (min c.len JPEG_FRAME_SIZE)
    have hfill : slotBit ((slot % DMA_RING_DEPTH + 1) % DMA_RING_DEPTH) = !(abs s).fill := by
      rw [hslot, slotBit_succ, Nat.mod_eq_of_lt h.writeSlot]
      rfl
    have hmem : (abs s).mem (abs s).fill = c.bytes := by
      rw [hbytes]
      exact abs_mem h.writeSlot
    rw [hmem, ← hfill] at hstep
    simp only [act, abs, hc, Option.map_some]
    exact hstep
  | loadWriteSlot hl hr hok => exact rfl
  | @loadFrameLen r slot sl hr hok =>
    have hn : (abs s).loan r = none := by simp only [abs, h.exclusive.held_eq_none hr, Option.map_none]
    have hstep := SharedBuffer.Step.acquire hn (sl.map slotBit)
    rw [← abs_ofSlice (h.reading r slot hr) hok] at hstep
    simp only [act, obtained_eq hr hok, Option.map_some, abs, SharedBuffer.map_update]
    exact hstep
  | @transmit r l l' hl hl' =>
    have hsend : (l.map slotBit).send (abs s).mem = some (l'.map slotBit) := by
      rw [← Loan.map_send (abs_mem (h.loan r l hl)), hl', Option.map_some]
    have hloan : (abs s).loan r = some (l.map slotBit) := by simp only [abs, hl, Option.map_some]
    simp only [act, abs, SharedBuffer.map_update]
    exact SharedBuffer.Step.transmit hloan hsend
  | release r =>
    simp only [act, abs, SharedBuffer.map_update]
    exact SharedBuffer.Step.release (abs s) r

/-- The ring is a double buffer with a consumer for each connection. -/
def refines : WeakRefines (system ρ) (SharedBuffer.system ρ UInt8) where
  inv := Inv
  abs := abs
  act := act
  init s hi := by rw [hi]; exact ⟨inv_initial, rfl, rfl, fun _ => rfl⟩
  step _ _ _ h hs := ⟨h.step hs, h.abs_step hs⟩

end

/-! ## Streams -/

/-- The slice that `r` sends is not in the slot being filled; it still shows the frame it
was obtained from, and so does every byte sent. -/
def Untorn (r : ρ) (s : State ρ) : Prop :=
  ∀ l, s.loan r = some l → s.buf.writeSlot ≠ l.buf ∧ l.Intact s.ring.slot

/-- The step does not publish a frame while `r` sends one, and `r` obtains nothing from
the slot that is being filled. -/
structure Clear (r : ρ) (s : State ρ) (a : Action ρ) : Prop where
  publishes : a = .access (.storeWriteSlot ()) → s.loan r = none
  obtains : a = .access (.loadFrameLen r) → s.reading r = some s.buf.writeSlot →
    s.buf.frameOf s.ring s.buf.writeSlot = .ok .empty

/-- The valid part of the frame published last. -/
def latest (s : State ρ) : List UInt8 :=
  Capture.latest (s.last.map (Capture.clamp JPEG_FRAME_SIZE))

/-- The byte that a step sends for `r`. -/
def sentBy [DecidableEq ρ] (r : ρ) (s : State ρ) : Action ρ → Option UInt8
  | .transmit r' =>
    if r' = r then (s.loan r).bind fun l => (s.ring.slot l.buf)[l.sent.length]? else none
  | _ => none

/-- The frame that `r` obtains at a step: the latest one, unless its slot is being filled. -/
def obtainedBy [DecidableEq ρ] (r : ρ) (s : State ρ) : Action ρ → Option (List UInt8)
  | .access (.loadFrameLen r') =>
    if r' = r then
      (s.reading r).map fun slot => if slot = s.buf.writeSlot then [] else latest s
    else none
  | _ => none

/-- The step does not end the sending of a frame of `r` before its end. -/
def Finished (r : ρ) (s : State ρ) (a : Action ρ) : Prop :=
  a = .release r → remaining (s.loan r) = []

theorem clear_of {s : State ρ} {a : Action ρ} {r : ρ} (hp : a ≠ .access (.storeWriteSlot ()))
    (ho : a ≠ .access (.loadFrameLen r)) : Clear r s a :=
  ⟨fun ha => absurd ha hp, fun ha => absurd ha ho⟩

theorem finished_of_ne {r : ρ} {s : State ρ} {a : Action ρ} (h : a ≠ .release r) : Finished r s a :=
  fun ha => absurd ha h

/-- What the steps of a connection that streams well meet. -/
def Orderly (r : ρ) (s : State ρ) (a : Action ρ) : Prop := Clear r s a ∧ Finished r s a

theorem orderly_of_ne {r : ρ} {s : State ρ} {a : Action ρ} (hp : a ≠ .access (.storeWriteSlot ()))
    (ho : a ≠ .access (.loadFrameLen r)) (hf : a ≠ .release r) : Orderly r s a :=
  ⟨clear_of hp ho, finished_of_ne hf⟩

/-! ## The latest frame -/

/-- What a slice of the ring shows is what one of the double buffer does. -/
theorem read_map {s : State ρ} (h : Inv s) {r : ρ} {slot : Nat} {sl : Slice Nat}
    (hr : s.reading r = some slot) (hok : s.buf.frameOf s.ring slot = .ok sl) :
    (sl.map slotBit).read (abs s).mem = sl.read s.ring.slot := by
  rcases buf_of_frameOf hok with rfl | ⟨len, -, -, rfl⟩
  · rfl
  · simp only [Slice.map, Slice.read_of, abs_mem (h.reading r slot hr)]

/-- A connection whose slot is not being filled is to get the latest frame. -/
def GetsLatest (r : ρ) (s : State ρ) : Prop :=
  ∀ slot, s.reading r = some slot → slot ≠ s.buf.writeSlot →
    ∃ sl, s.buf.frameOf s.ring slot = .ok sl ∧ sl.read s.ring.slot = latest s

section

variable [DecidableEq ρ] [Usize] {h : List (State ρ × Action ρ)} {s : State ρ}

theorem run_getsLatest (hr : Run (system ρ) h s) (r : ρ) : GetsLatest r s := by
  intro slot hread hne
  have hi : Inv s := refines.inv_run hr
  have hslot := hi.reading_eq hread hne
  have hframe := hi.frameLen
  rw [← hslot] at hframe
  have hok : s.buf.frameOf s.ring slot = .ok _ := frameOf_ok (hi.reading r slot hread) hframe
    (Capture.latestLen_clamp_le JPEG_FRAME_SIZE s.last)
  refine ⟨_, hok, ?_⟩
  have hready : ((abs s).view r).ready.read (abs s).mem = latest s :=
    DoubleBuffer.ready_read (SharedBuffer.run_sound (refines.run hr) r)
  rw [← read_map hi hread hok, ← hready]
  have hbit : slotBit slot = !slotBit s.buf.writeSlot := by
    rw [hslot, slotBit_succ, Nat.mod_eq_of_lt hi.writeSlot]
  show (Slice.map slotBit (if lastLen s.last = 0 then .empty else .of slot (lastLen s.last))).read _ =
    (if lastLen s.last = 0 then Slice.empty
      else .of (!slotBit s.buf.writeSlot) (lastLen s.last)).read _
  by_cases h0 : lastLen s.last = 0
  · rw [if_pos h0, if_pos h0]
    rfl
  · rw [if_neg h0, if_neg h0, Slice.map, hbit]

end

/-! ## A frame of one byte -/

section

variable [DecidableEq ρ] [Usize] {h : List (State ρ × Action ρ)} {s : State ρ} {r : ρ}

/-- A run in which nothing is sent to `r` goes on with a frame of one byte. -/
theorem run_published (hr : Run (system ρ) h s) (hm : s.marking () = none)
    (hloan : s.loan r = none) (hok : Took (Orderly r) h) (byte : UInt8) :
    ∃ h' s', Run (system ρ) h' s' ∧ s'.marking () = none ∧ s'.reading = s.reading ∧
      s'.loan = s.loan ∧ latest s' = [byte] ∧ Took (Orderly r) h' ∧
      trace (obtainedBy r) h' = trace (obtainedBy r) h := by
  have hw : s.buf.writeSlot < DMA_RING_DEPTH := (refines.inv_run hr : Inv s).writeSlot
  have h₁ := hr.next (.write 0 byte hm)
  have h₂ := h₁.next (.storeFrameLen hm (Nat.mod_eq_of_lt hw)
    (storeFrameLen_ok _ s.buf.writeSlot 1))
  have h₃ := h₂.next (.storeWriteSlot rfl (storeWriteSlot_ok _ s.buf.writeSlot))
  refine ⟨_, _, h₃, rfl, rfl, rfl, take_one_write s.ring hw byte, ?_, ?_⟩
  · refine took_cons.mpr ⟨⟨⟨fun _ => hloan, by simp⟩, finished_of_ne (by simp)⟩, ?_⟩
    refine took_cons.mpr ⟨orderly_of_ne (by simp) (by simp) (by simp), ?_⟩
    exact took_cons.mpr ⟨orderly_of_ne (by simp) (by simp) (by simp), hok⟩
  · simp only [trace_cons, obtainedBy, Option.toList_none, List.append_nil]

/-- A connection whose slot is not being filled obtains a frame of one byte, and sends
it. -/
theorem run_obtained (hr : Run (system ρ) h s) {slot : Nat} (hread : s.reading r = some slot)
    (hne : slot ≠ s.buf.writeSlot) {byte : UInt8} (hlatest : latest s = [byte])
    (hok : Took (Orderly r) h) :
    ∃ h' s' l, Run (system ρ) h' s' ∧ s'.loan r = some l ∧ l.sent = [byte] ∧ l.remaining = [] ∧
      s'.marking = s.marking ∧ s'.reading r = none ∧ Took (Orderly r) h' ∧
      trace (obtainedBy r) h' = trace (obtainedBy r) h ++ [[byte]] := by
  obtain ⟨sl, hframe, hslice⟩ := run_getsLatest hr r slot hread hne
  obtain ⟨l, l', hl, hsend, hsent, hrest⟩ := Loan.sent_one (hslice.trans hlatest)
  have h₁ := hr.next (.loadFrameLen hread hframe)
  rw [hl] at h₁
  have h₂ := h₁.next (.transmit (Function.update_self _ _ _) hsend)
  refine ⟨_, _, l', h₂, Function.update_self _ _ _, hsent, hrest, rfl,
    Function.update_self _ _ _, ?_, ?_⟩
  · refine took_cons.mpr ⟨orderly_of_ne (by simp) (by simp) (by simp), ?_⟩
    refine took_cons.mpr ⟨⟨⟨by simp, fun _ hw => ?_⟩, finished_of_ne (by simp)⟩, hok⟩
    exact absurd (Option.some.inj (hread.symm.trans hw)) hne
  · simp only [trace_cons, obtainedBy, if_true, hread, Option.map_some, if_neg hne, hlatest,
      Option.toList_none, Option.toList_some, List.append_nil]

/-- A connection at rest obtains a frame of one byte, and sends it. -/
theorem run_sending (hr : Run (system ρ) h s) (hm : s.marking () = none)
    (hread : s.reading r = none) (hloan : s.loan r = none) (hok : Took (Orderly r) h)
    (byte : UInt8) :
    ∃ h' s' l, Run (system ρ) h' s' ∧ s'.loan r = some l ∧ l.sent = [byte] ∧ l.remaining = [] ∧
      s'.marking () = none ∧ s'.reading r = none ∧ Took (Orderly r) h' ∧
      trace (obtainedBy r) h' = trace (obtainedBy r) h ++ [[byte]] := by
  obtain ⟨h₁, s₁, hr₁, hm₁, hread₁, hloan₁, hlatest, hok₁, htrace₁⟩ :=
    run_published hr hm hloan hok byte
  have hw : s₁.buf.writeSlot < DMA_RING_DEPTH := (refines.inv_run hr₁ : Inv s₁).writeSlot
  have hne : (s₁.buf.writeSlot + 1) % DMA_RING_DEPTH ≠ s₁.buf.writeSlot := by
    simp only [DMA_RING_DEPTH] at hw ⊢
    omega
  have hr₂ := hr₁.next
    (.loadWriteSlot (by rw [hloan₁, hloan]) (by rw [hread₁, hread]) (currentReadSlot_ok hw))
  obtain ⟨h', s', l, hr', hl, hsent, hrest, hm', hread', hok', htrace⟩ :=
    run_obtained hr₂ (Function.update_self _ _ _) hne hlatest
      (took_cons.mpr ⟨orderly_of_ne (by simp) (by simp) (by simp), hok₁⟩)
  refine ⟨h', s', l, hr', hl, hsent, hrest, by rw [hm', hm₁], hread', hok', ?_⟩
  simp only [htrace, trace_cons, obtainedBy, htrace₁, Option.toList_none, List.append_nil]

end

/-! ## Loans -/

theorem untorn_iff_intact {s : State ρ} (h : Inv s) (r : ρ) : ((abs s).view r).Intact ↔ Untorn r s := by
  simp only [DoubleBuffer.State.Intact, Untorn, SharedBuffer.State.view, abs,
    Option.map_eq_some_iff, forall_exists_index, and_imp, forall_apply_eq_imp_iff₂]
  refine forall₂_congr fun l hl => and_congr ?_ (Loan.intact_map (abs_mem (h.loan r l hl)))
  rw [not_iff_not]
  refine ⟨fun he => ?_, congrArg slotBit⟩
  rw [← toNat_slotBit h.writeSlot, ← toNat_slotBit (h.loan r l hl)]
  exact congrArg Bool.toNat he

/-- A slice is of the buffer being filled if it is of the slot being filled. -/
theorem obtains_iff {s : State ρ} (h : Inv s) {r : ρ} {slot : Nat} {sl : Slice Nat}
    (hr : s.reading r = some slot) (hok : s.buf.frameOf s.ring slot = .ok sl) :
    (∀ len, sl.map slotBit = .of (slotBit s.buf.writeSlot) len → len = 0) ↔
      (slot = s.buf.writeSlot → sl = .empty) := by
  rcases buf_of_frameOf hok with rfl | ⟨len, -, h0, rfl⟩
  · exact iff_of_true (fun len he => nomatch he) fun _ => rfl
  · simp only [Slice.map, Slice.of.injEq, and_imp, reduceCtorEq, imp_false]
    have hinj : slotBit slot = slotBit s.buf.writeSlot ↔ slot = s.buf.writeSlot := by
      refine ⟨fun he => ?_, congrArg slotBit⟩
      rw [← toNat_slotBit h.writeSlot, ← toNat_slotBit (h.reading r slot hr), he]
    rw [hinj]
    exact ⟨fun hc he => h0 (hc len he rfl), fun hc len' he _ => absurd he hc⟩

section

variable [DecidableEq ρ] [Usize] {s s' : State ρ} {a : Action ρ}

theorem clear_iff (h : Inv s) (hs : Step s a s') (r : ρ) :
    (∀ b, act s a = some b → SharedBuffer.Clear r (abs s) b) ↔ Clear r s a := by
  cases hs with
  | storeFrameLen | loadWriteSlot =>
    exact iff_of_true (by simp [act]) (clear_of (by simp) (by simp))
  | write | transmit | release =>
    refine iff_of_true (fun b hb => ?_) (clear_of (by simp) (by simp))
    obtain rfl := Option.some.inj hb
    exact SharedBuffer.clear_of (by simp) rfl
  | @storeWriteSlot slot buf' hm hok =>
    obtain ⟨-, c, hc, -, -⟩ := h.marking slot hm
    simp only [act, hc, Option.map_some, Option.some.injEq, forall_eq']
    refine ⟨fun hcl => ⟨fun _ => ?_, by simp⟩,
      fun hcl => ⟨fun len _ => ?_, by simp [SharedBuffer.Action.lends]⟩⟩
    · simpa [abs] using hcl.complete _ rfl
    · simp only [abs, hcl.publishes rfl, Option.map_none]
  | @loadFrameLen r' slot sl hr hok =>
    simp only [act, obtained_eq hr hok, Option.map_some, Option.some.injEq, forall_eq']
    by_cases he : r' = r
    · subst he
      have hiff := obtains_iff h hr hok
      refine ⟨fun hcl => ⟨by simp, fun _ hw => ?_⟩, fun hcl => ⟨by simp, fun len hl => ?_⟩⟩
      · rw [hr, Option.some.injEq] at hw
        have hempty : sl = .empty := hiff.mp (fun len hsl => hcl.lends len
          (by simp [SharedBuffer.Action.lends, hsl, abs])) hw
        rw [← hw, hok, hempty]
      · refine hiff.mpr (fun hw => ?_) len (by simpa [SharedBuffer.Action.lends, abs] using hl)
        have hempty := hcl.obtains rfl (by rw [hr, hw])
        rw [← hw, hok, Except.ok.injEq] at hempty
        exact hempty
    · refine iff_of_true (SharedBuffer.clear_of (by simp) (if_neg he)) (clear_of (by simp) ?_)
      simp [he]

/-- In every run of any number of connections: the frames that a connection sends stay
untorn, in all of its states, exactly when no frame is published while it sends one, and
it obtains none from the slot that is being filled. -/
theorem streams_untorn_iff {h : List (State ρ × Action ρ)} (hr : Run (system ρ) h s) (r : ρ) :
    Always (Untorn r) h s ↔ Took (Clear r) h :=
  refines.always_took_iff (fun _ hi => untorn_iff_intact hi r)
    (fun _ _ _ hi hs => clear_iff hi hs r)
    (fun _ _ hr => SharedBuffer.always_intact_iff hr r) hr

end

/-- A byte of a frame is obtained, and sent as it was. -/
theorem byte_streamed : ∃ h s, Run (@system Unit _ esp32) h s ∧
    (∃ l, s.loan () = some l ∧ l.sent = [0xAA]) ∧ Always (Untorn ()) h s := by
  let _ := esp32
  have h₀ : Run (system Unit) [] (initial Unit) := .start rfl
  obtain ⟨h, s, l, hr, hloan, hsent, -, -, -, hok, -⟩ :=
    run_sending (r := ()) h₀ rfl rfl rfl (took_nil _) 0xAA
  refine ⟨h, s, hr, ⟨l, hloan, hsent⟩, ?_⟩
  exact (streams_untorn_iff hr ()).mpr fun e he => (hok e he).1

/-! ## What is sent -/

section

variable [DecidableEq ρ] [Usize] {s s' : State ρ} {a : Action ρ}

omit [Usize] in
theorem sentBy_abs (h : Inv s) (r : ρ) (a : Action ρ) :
    (act s a).bind (SharedBuffer.sentBy r (abs s)) = sentBy r s a := by
  cases a with
  | access a =>
    cases a with
    | write | storeFrameLen | loadWriteSlot => rfl
    | storeWriteSlot =>
      simp only [act, sentBy]
      cases s.completed <;> rfl
    | loadFrameLen r' =>
      simp only [act, sentBy]
      cases obtained s r' <;> rfl
  | release r' => exact SharedBuffer.sentBy_release r'
  | transmit r' => exact SharedBuffer.sentBy_transmit rfl (fun l hl => abs_mem (h.loan r l hl)) r'

omit [Usize] in
theorem lentBy_abs (h : Inv s) {r : ρ} (hl : GetsLatest r s) (hc : Clear r s a) :
    (act s a).bind (SharedBuffer.lentBy r (abs s)) = obtainedBy r s a := by
  cases a with
  | transmit | release => rfl
  | access a =>
    cases a with
    | write | storeFrameLen | loadWriteSlot => rfl
    | storeWriteSlot =>
      simp only [act, obtainedBy]
      cases s.completed <;> rfl
    | loadFrameLen r' =>
      simp only [act, obtainedBy]
      by_cases he : r' = r
      · subst he
        rw [if_pos rfl]
        cases hread : s.reading r' with
        | none => simp [obtained, hread]
        | some slot =>
          obtain ⟨sl, hok, hsl⟩ : ∃ sl, s.buf.frameOf s.ring slot = .ok sl ∧
              sl.read s.ring.slot = if slot = s.buf.writeSlot then [] else latest s := by
            by_cases hw : slot = s.buf.writeSlot
            · refine ⟨.empty, ?_, by rw [if_pos hw]; rfl⟩
              rw [hw]
              exact hc.obtains rfl (by rw [hread, hw])
            · rw [if_neg hw]
              exact hl slot hread hw
          simp [obtained_eq hread hok, SharedBuffer.lentBy, SharedBuffer.Action.lends,
            read_map h hread hok, hsl]
      · rw [if_neg he]
        cases obtained s r' with
        | none => rfl
        | some sl => simp [SharedBuffer.lentBy, SharedBuffer.Action.lends, he]

omit [DecidableEq ρ] [Usize] in
theorem finished_abs {r : ρ} (hf : Finished r s a) :
    ∀ b, act s a = some b → SharedBuffer.Finished r (abs s) b := by
  intro b hb hrel
  subst hrel
  show remaining ((s.loan r).map (Loan.map slotBit)) = []
  rw [remaining_map]
  refine hf ?_
  cases a with
  | release r' => simpa [act] using hb
  | transmit => simp [act] at hb
  | access a => cases a <;> simp [act] at hb

end

section

variable [DecidableEq ρ] [Usize] {s s' : State ρ} {a : Action ρ}

/-- The accesses of the streams are those of the metadata. -/
def accesses : WeakRefines (system ρ) (CameraAtomics.system Unit ρ) where
  inv _ := True
  abs := State.toState
  act _
    | .access a => some a
    | .transmit _ | .release _ => none
  init s hi := by rw [hi]; exact ⟨trivial, rfl⟩
  step s a s' _ hs := by
    refine ⟨trivial, ?_⟩
    cases hs with
    | write i byte hm => exact CameraAtomics.Step.write _ _ _ _
    | storeFrameLen hm hslot hok => exact CameraAtomics.Step.storeFrameLen hm hok
    | storeWriteSlot hm hok => exact CameraAtomics.Step.storeWriteSlot hm hok
    | loadWriteSlot hl hr hok => exact CameraAtomics.Step.loadWriteSlot hr hok
    | loadFrameLen hr hok => exact CameraAtomics.Step.loadFrameLen hr hok
    | transmit | release => exact rfl

theorem accesses_disciplined {h : List (State ρ × Action ρ)} (hr : Run (system ρ) h s) :
    Took Disciplined (accesses.history h) := by
  refine accesses.took_iff.mpr (hr.took fun s a s' hs b hb => ?_)
  cases hs with
  | write i byte hm =>
    obtain rfl := Option.some.inj hb
    exact disciplined_write rfl hm i byte
  | storeFrameLen hm hslot hok =>
    obtain rfl := Option.some.inj hb
    exact disciplined_store hslot _
  | storeWriteSlot | loadWriteSlot | loadFrameLen =>
    obtain rfl := Option.some.inj hb
    exact ⟨by simp, by simp⟩
  | transmit | release => exact nomatch hb

/-- A connection's slot is the one being filled exactly if an odd number of frames was
published since it loaded it. -/
theorem filled_iff_odd {h : List (State ρ × Action ρ)} (hr : Run (system ρ) h s) {r : ρ}
    {slot : Nat} (hread : s.reading r = some slot) :
    slot = s.buf.writeSlot ↔ publishedSince r (accesses.history h) % 2 = 1 := by
  have hparity := (run_kept (accesses.run hr) (accesses_disciplined hr)).reading r slot hread
  have hlt := (refines.inv_run hr : Inv s).reading r slot hread
  change s.buf.writeSlot = _ at hparity
  rw [hparity]
  simp only [DMA_RING_DEPTH] at hlt ⊢
  omega

end

end SrkOS.Proof.CameraStreams
