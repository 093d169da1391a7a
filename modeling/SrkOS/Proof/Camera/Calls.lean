import SrkOS.Framework.Traces
import SrkOS.Proof.Camera.Sent
import SrkOS.Proof.Camera.Streams

/-!
# Calls of the ring as single steps

In the pipeline of `Camera.system` each call of `mark_frame_ready` and of `current_frame`
is a single step, and there is one connection; in that of `CameraStreams.system` each of
their accesses is a step, and there is any number of connections. To a connection the two
are the same, as long as it obtains nothing from the slot that is being filled:
`mark_frame_ready` takes effect with its second store, and `current_frame` with its second
load (`frames_atomic`).
-/

namespace SrkOS.Proof.CameraStreams

open Framework SrkOS.Impl SrkOS.Impl.CameraStreams SrkOS.Proof.Camera SrkOS.Proof.CameraAtomics

variable {ρ : Type}

/-! ## What is seen -/

/-- What a step of the pipeline shows. -/
def shown [Usize] (s : Camera.State) : Camera.Action → Option (StreamEvent UInt8)
  | .write i byte => some (.written i byte)
  | .complete len => some (.completed len)
  | .acquire =>
    (s.buf.currentFrameFrom s.ring).toOption.bind (StreamEvent.ofSlice s.ring.slot)
  | .transmit => (Camera.sentBy s .transmit).map .sent
  | .release => some .released

/-- What a step shows of the producer and of `r`. -/
def shownTo [DecidableEq ρ] (r : ρ) (s : State ρ) : Action ρ → Option (StreamEvent UInt8)
  | .access (.write _ i byte) => some (.written i byte)
  | .access (.storeFrameLen _ _ _) => none
  | .access (.storeWriteSlot _) => s.completed.map fun c => .completed c.len
  | .access (.loadWriteSlot _) => none
  | .access (.loadFrameLen r') =>
    if r' = r then (obtained s r).bind (StreamEvent.ofSlice s.ring.slot) else none
  | .transmit r' => (sentBy r s (.transmit r')).map .sent
  | .release r' => if r' = r then some .released else none

/-- `r` obtains nothing from the slot that is being filled. -/
def Steady (r : ρ) (s : State ρ) (a : Action ρ) : Prop :=
  a = .access (.loadFrameLen r) → s.reading r = some s.buf.writeSlot →
    s.buf.frameOf s.ring s.buf.writeSlot = .ok .empty

/-! ## The same states -/

/-- The pipeline as `r` sees it. -/
structure Agree (r : ρ) (s : State ρ) (t : Camera.State) : Prop where
  inv : Inv s
  pipeline : Camera.Inv t
  ring : t.ring = s.ring
  fill : t.fillSlot = s.buf.writeSlot
  last : t.last = s.last
  loan : t.loan = s.loan r

theorem agree_initial (r : ρ) : Agree r (initial ρ) Camera.initial :=
  ⟨inv_initial, Camera.inv_initial, rfl, rfl, rfl, rfl⟩

section

variable {r : ρ} {s s' : State ρ} {t : Camera.State}

/-- A step that changes nothing that `r` sees. -/
theorem Agree.silent (h : Agree r s t) (hi : Inv s') (hw : s'.buf.writeSlot = s.buf.writeSlot)
    (hring : s'.ring = s.ring) (hlast : s'.last = s.last) (hloan : s'.loan r = s.loan r) :
    Agree r s' t :=
  ⟨hi, h.pipeline, h.ring.trans hring.symm, h.fill.trans hw.symm, h.last.trans hlast.symm,
    h.loan.trans hloan.symm⟩

theorem steady_of_ne {a : Action ρ} (h : a ≠ .access (.loadFrameLen r)) : Steady r s a :=
  fun ha => absurd ha h

theorem Steady.slot_ne (hst : Steady r s (.access (.loadFrameLen r))) {slot : Nat} {sl : Slice Nat}
    (hr : s.reading r = some slot) (hok : s.buf.frameOf s.ring slot = .ok sl) (h0 : sl ≠ .empty) :
    slot ≠ s.buf.writeSlot := by
  rintro rfl
  have hempty := hst rfl hr
  rw [hok, Except.ok.injEq] at hempty
  exact h0 hempty

variable [Usize]

/-- A call of the pipeline reads the slot that is not being filled. -/
theorem Agree.currentFrameFrom (h : Agree r s t) :
    t.buf.currentFrameFrom t.ring =
      s.buf.frameOf s.ring ((s.buf.writeSlot + 1) % DMA_RING_DEPTH) := by
  have hslot : (t.frame + 1) % DMA_RING_DEPTH = (s.buf.writeSlot + 1) % DMA_RING_DEPTH := by
    rw [← h.fill, Camera.State.fillSlot, Nat.mod_add_mod]
  rw [h.pipeline.currentFrameFrom, hslot, show Camera.lastLen t = lastLen s.last by
    rw [Camera.lastLen, h.last, lastLen]]
  exact (frameOf_ok (mod_depth_lt _) h.inv.frameLen (Capture.latestLen_clamp_le _ _)).symm

/-- What `r` obtains from a slot that is not being filled, a call of the pipeline returns. -/
theorem Agree.currentFrameFrom_ok (h : Agree r s t) {slot : Nat} {sl : Slice Nat}
    (hr : s.reading r = some slot) (hok : s.buf.frameOf s.ring slot = .ok sl)
    (hne : slot ≠ s.buf.writeSlot) : t.buf.currentFrameFrom t.ring = .ok sl := by
  rw [h.currentFrameFrom, ← h.inv.reading_eq hr hne, hok]

end

/-! ## The steps of the pipeline -/

/-- The step of the pipeline that a step stands for, as `r` sees it. -/
def seenBy [DecidableEq ρ] (r : ρ) (s : State ρ) : Action ρ → Option Camera.Action
  | .access (.write _ i byte) => some (.write i byte)
  | .access (.storeFrameLen _ _ _) => none
  | .access (.storeWriteSlot _) => s.completed.map fun c => .complete c.len
  | .access (.loadWriteSlot _) => none
  | .access (.loadFrameLen r') => if r' = r ∧ obtained s r ≠ some .empty then some .acquire else none
  | .transmit r' => if r' = r then some .transmit else none
  | .release r' => if r' = r then some .release else none

section

variable [DecidableEq ρ] [Usize] {slotArg : Nat → Nat} {r : ρ} {s s' : State ρ}
  {t : Camera.State}

/-- `mark_frame_ready` takes effect with its second store. -/
theorem Agree.storeWriteSlot (hp : ∀ k, slotArg k % DMA_RING_DEPTH = k % DMA_RING_DEPTH)
    (h : Agree r s t) (hs : Step s (.access (.storeWriteSlot ())) s') :
    ∃ t', Moves (Camera.system slotArg) t (seenBy r s (.access (.storeWriteSlot ()))) t' ∧
      Agree r s' t' := by
  have hi := h.inv.step hs
  cases hs with
  | @storeWriteSlot slot buf' hm hok =>
    rw [storeWriteSlot_ok, Except.ok.injEq] at hok
    subst hok
    obtain ⟨hslot, c, hc, hbytes, -⟩ := h.inv.marking slot hm
    have ht : Camera.Step slotArg t _ _ := .complete (markFrameReady_ok t.buf _ c.len)
    have hseen : seenBy r s (.access (.storeWriteSlot ())) = some (.complete c.len) := by
      simp only [seenBy, hc, Option.map_some]
    rw [hseen]
    refine ⟨_, ht, hi, h.pipeline.step hp ht, h.ring, ?_, ?_, h.loan⟩
    · show (t.frame + 1) % DMA_RING_DEPTH = (slot % DMA_RING_DEPTH + 1) % DMA_RING_DEPTH
      rw [hslot, ← h.fill, Camera.State.fillSlot, Nat.mod_add_mod]
    · show some _ = s.completed
      rw [hc, h.ring, h.fill, ← hbytes]

/-- `current_frame` takes effect with its second load, unless it returns nothing. -/
theorem Agree.loadFrameLen (hp : ∀ k, slotArg k % DMA_RING_DEPTH = k % DMA_RING_DEPTH)
    (h : Agree r s t) (hs : Step s (.access (.loadFrameLen r)) s')
    (hst : Steady r s (.access (.loadFrameLen r))) :
    ∃ t', Moves (Camera.system slotArg) t (seenBy r s (.access (.loadFrameLen r))) t' ∧
      Agree r s' t' := by
  have hi := h.inv.step hs
  cases hs with
  | @loadFrameLen _ slot sl hr hok =>
    have hn : s.loan r = none := h.inv.exclusive.held_eq_none hr
    simp only [seenBy, obtained_eq hr hok, true_and]
    by_cases h0 : sl = .empty
    · subst h0
      exact ⟨t, rfl, h.silent hi rfl rfl rfl ((Function.update_self r none s.loan).trans hn.symm)⟩
    · have hother := hst.slot_ne hr hok h0
      have ht : Camera.Step slotArg t _ _ :=
        .acquire (h.loan.trans hn) (h.currentFrameFrom_ok hr hok hother)
      rw [if_pos (by simpa using h0)]
      refine ⟨_, ht, hi, h.pipeline.step hp ht, h.ring, h.fill, h.last, ?_⟩
      show Loan.ofSlice t.ring.slot sl = Function.update s.loan r _ r
      rw [Function.update_self, h.ring]

theorem Agree.step (hp : ∀ k, slotArg k % DMA_RING_DEPTH = k % DMA_RING_DEPTH) {a : Action ρ}
    (h : Agree r s t) (hs : Step s a s') (hst : Steady r s a) :
    ∃ t', Moves (Camera.system slotArg) t (seenBy r s a) t' ∧ Agree r s' t' := by
  have hi := h.inv.step hs
  cases hs with
  | write i byte hm =>
    have ht : Camera.Step slotArg t _ _ := .write t i byte
    refine ⟨_, ht, hi, h.pipeline.step hp ht, ?_, h.fill, h.last, h.loan⟩
    rw [h.fill, h.ring]
  | @storeFrameLen slot len buf' hm hslot hok =>
    rw [storeFrameLen_ok, Except.ok.injEq] at hok
    subst hok
    exact ⟨t, rfl, h.silent hi rfl rfl rfl rfl⟩
  | storeWriteSlot hm hok => exact h.storeWriteSlot hp (.storeWriteSlot hm hok)
  | loadWriteSlot hl hr hok => exact ⟨t, rfl, h.silent hi rfl rfl rfl rfl⟩
  | @loadFrameLen r' slot sl hr hok =>
    by_cases he : r' = r
    · subst he
      exact h.loadFrameLen hp (.loadFrameLen hr hok) hst
    · simp only [seenBy, he, false_and, if_false]
      exact ⟨t, rfl, h.silent hi rfl rfl rfl (Function.update_of_ne (Ne.symm he) _ _)⟩
  | @transmit r' l l' hl hl' =>
    by_cases he : r' = r
    · subst he
      have ht : Camera.Step slotArg t _ _ := .transmit (h.loan.trans hl) (h.ring ▸ hl')
      rw [seenBy, if_pos rfl]
      exact ⟨_, ht, hi, h.pipeline.step hp ht, h.ring, h.fill, h.last,
        (Function.update_self r' _ s.loan).symm⟩
    · rw [seenBy, if_neg he]
      exact ⟨t, rfl, h.silent hi rfl rfl rfl (Function.update_of_ne (Ne.symm he) _ _)⟩
  | release r' =>
    by_cases he : r' = r
    · subst he
      have ht : Camera.Step slotArg t _ _ := .release t
      rw [seenBy, if_pos rfl]
      exact ⟨_, ht, hi, h.pipeline.step hp ht, h.ring, h.fill, h.last,
        (Function.update_self r' _ s.loan).symm⟩
    · rw [seenBy, if_neg he]
      exact ⟨t, rfl, h.silent hi rfl rfl rfl (Function.update_of_ne (Ne.symm he) _ _)⟩

/-- To `r`, a step is the one of the pipeline that it stands for. -/
theorem Agree.shown_eq {a : Action ρ} (h : Agree r s t) (hs : Step s a s') (hst : Steady r s a) :
    (seenBy r s a).bind (shown t) = shownTo r s a := by
  cases hs with
  | write | storeFrameLen | loadWriteSlot => rfl
  | storeWriteSlot hm hok =>
    simp only [seenBy, shownTo]
    cases s.completed <;> rfl
  | @loadFrameLen r' slot sl hr hok =>
    by_cases he : r' = r
    · subst he
      simp only [seenBy, shownTo, obtained_eq hr hok, true_and, if_true, Option.bind_some]
      by_cases h0 : sl = .empty
      · subst h0
        rfl
      · have hother := hst.slot_ne hr hok h0
        rw [if_pos (by simpa using h0), Option.bind_some, shown, h.currentFrameFrom_ok hr hok hother,
          h.ring]
        rfl
    · simp only [seenBy, shownTo, he, false_and, if_false, Option.bind_none]
  | @transmit r' l l' hl hl' =>
    by_cases he : r' = r
    · subst he
      simp only [seenBy, shownTo, if_true, Option.bind_some, shown, Camera.sentBy, sentBy, h.loan,
        h.ring]
    · simp only [seenBy, shownTo, sentBy, he, if_false, Option.bind_none, Option.map_none]
  | release r' =>
    by_cases he : r' = r
    · subst he
      simp only [seenBy, shownTo, if_true, Option.bind_some, shown]
    · simp only [seenBy, shownTo, he, if_false, Option.bind_none]

/-- To a connection that is not to obtain anything from the slot being filled, the calls
are single steps. -/
def simulation (hp : ∀ k, slotArg k % DMA_RING_DEPTH = k % DMA_RING_DEPTH) (r : ρ) :
    Simulation ((system ρ).restrict (Steady r)) (Camera.system slotArg) where
  rel := Agree r
  act := seenBy r
  init s hi := ⟨_, rfl, by rw [show s = initial ρ from hi]; exact agree_initial r⟩
  step _ _ _ _ h hs := h.step hp hs.1 hs.2

end

/-! ## The accesses of a call -/

/-- No call is being made, neither by the driver nor by `r`. -/
structure Between (r : ρ) (s : State ρ) (t : Camera.State) : Prop extends Agree r s t where
  marking : s.marking () = none
  reading : s.reading r = none

section

variable [DecidableEq ρ] [Usize] {slotArg : Nat → Nat} {r : ρ} {s : State ρ}
  {t t' : Camera.State}

/-- From `s`, a path that shows `event` leads to a state that agrees with `t'`. -/
def Leads (r : ρ) (s : State ρ) (event : Option (StreamEvent UInt8)) (t' : Camera.State) : Prop :=
  ∃ p s', Path ((system ρ).restrict (Steady r)) s p s' ∧ trace (shownTo r) p = event.toList ∧
    Between r s' t'

theorem path_inv (h : Inv s) {p : List (State ρ × Action ρ)} {s' : State ρ}
    (hp : Path ((system ρ).restrict (Steady r)) s p s') : Inv s' :=
  hp.keep (fun _ _ _ hi hs => hi.step hs.1) h

/-- The stores of `mark_frame_ready`, one after the other. -/
theorem Between.markFrameReady (h : Between r s t) {slot len : Nat}
    (hslot : slot % DMA_RING_DEPTH = t.fillSlot) {buf' : DmaRingBuffer}
    (hpipe : Camera.Inv { t with
      buf := buf', frame := t.frame + 1, last := some ⟨t.ring.slot t.fillSlot, len⟩ }) :
    Leads r s (some (.completed len)) { t with
      buf := buf', frame := t.frame + 1, last := some ⟨t.ring.slot t.fillSlot, len⟩ } := by
  have hstart : Path ((system ρ).restrict (Steady r)) s [] s := .nil
  have h₁ := hstart.next ⟨.storeFrameLen h.marking (hslot.trans h.fill)
    (storeFrameLen_ok s.buf slot len), steady_of_ne (by simp)⟩
  have hmark : Function.update s.marking () (some slot) () = some slot := Function.update_self _ _ _
  have h₂ := h₁.next ⟨.storeWriteSlot hmark (storeWriteSlot_ok _ _), steady_of_ne (by simp)⟩
  refine ⟨_, _, h₂, rfl, ⟨⟨path_inv h.inv h₂, hpipe, h.ring, ?_, ?_, h.loan⟩, by simp, h.reading⟩⟩
  · show (t.frame + 1) % DMA_RING_DEPTH = (slot % DMA_RING_DEPTH + 1) % DMA_RING_DEPTH
    rw [hslot, Camera.State.fillSlot, Nat.mod_add_mod]
  · rw [h.ring, h.fill]

/-- The loads of `current_frame`, one after the other. -/
theorem Between.currentFrame (h : Between r s t) {sl : Slice Nat} (hn : t.loan = none)
    (hok : t.buf.currentFrameFrom t.ring = .ok sl)
    (hpipe : Camera.Inv { t with loan := Loan.ofSlice t.ring.slot sl }) :
    Leads r s (StreamEvent.ofSlice t.ring.slot sl)
      { t with loan := Loan.ofSlice t.ring.slot sl } := by
  rw [h.currentFrameFrom] at hok
  have hother : (s.buf.writeSlot + 1) % DMA_RING_DEPTH ≠ s.buf.writeSlot := by
    simp only [DMA_RING_DEPTH]
    omega
  have hstart : Path ((system ρ).restrict (Steady r)) s [] s := .nil
  have h₁ := hstart.next ⟨.loadWriteSlot (h.loan.symm.trans hn) h.reading
    (currentReadSlot_ok h.inv.writeSlot), steady_of_ne (by simp)⟩
  have hread : Function.update s.reading r (some ((s.buf.writeSlot + 1) % DMA_RING_DEPTH)) r =
      some ((s.buf.writeSlot + 1) % DMA_RING_DEPTH) := Function.update_self _ _ _
  have h₂ := h₁.next ⟨.loadFrameLen (r := r) hread hok,
    fun _ hr => absurd (Option.some.inj (hread.symm.trans hr)) hother⟩
  refine ⟨_, _, h₂, ?_,
    ⟨⟨path_inv h.inv h₂, hpipe, h.ring, h.fill, h.last, ?_⟩, h.marking, by simp⟩⟩
  · have hobt : obtained { s with reading := Function.update s.reading r (some _) } r = some sl :=
      obtained_eq hread hok
    rw [trace_cons, trace_cons, shownTo, shownTo, if_pos rfl, hobt, h.ring]
    rfl
  · rw [h.ring]
    exact (Function.update_self r _ s.loan).symm

/-- The accesses of a call of the pipeline, one after the other. -/
theorem Between.path (hp : ∀ k, slotArg k % DMA_RING_DEPTH = k % DMA_RING_DEPTH)
    {b : Camera.Action} (h : Between r s t) (ht : Camera.Step slotArg t b t') :
    Leads r s (shown t b) t' := by
  have hpipe := h.pipeline.step hp ht
  have hstart : Path ((system ρ).restrict (Steady r)) s [] s := .nil
  cases ht with
  | write i byte =>
    have h₁ := hstart.next ⟨.write i byte h.marking, steady_of_ne (by simp)⟩
    refine ⟨_, _, h₁, rfl,
      ⟨⟨path_inv h.inv h₁, hpipe, ?_, h.fill, h.last, h.loan⟩, h.marking, h.reading⟩⟩
    rw [h.fill, h.ring]
  | complete hok => exact h.markFrameReady (hp t.frame) hpipe
  | acquire hn hok =>
    rw [shown, hok]
    exact h.currentFrame hn hok hpipe
  | @transmit l l' hl hl' =>
    have h₁ := hstart.next ⟨.transmit (h.loan.symm.trans hl) (h.ring ▸ hl'), steady_of_ne (by simp)⟩
    refine ⟨_, _, h₁, ?_, ⟨⟨path_inv h.inv h₁, hpipe, h.ring, h.fill, h.last,
      (Function.update_self r _ s.loan).symm⟩, h.marking, h.reading⟩⟩
    simp only [trace_cons, trace_nil, List.nil_append, shownTo, shown, sentBy, Camera.sentBy, if_true,
      h.loan, h.ring]
  | release =>
    have h₁ := hstart.next ⟨.release s r, steady_of_ne (by simp)⟩
    refine ⟨_, _, h₁, ?_, ⟨⟨path_inv h.inv h₁, hpipe, h.ring, h.fill, h.last,
      (Function.update_self r _ s.loan).symm⟩, h.marking, h.reading⟩⟩
    simp only [trace_cons, trace_nil, List.nil_append, shownTo, shown, if_true]

/-- The accesses of the calls carry out the pipeline. -/
def expansion (hp : ∀ k, slotArg k % DMA_RING_DEPTH = k % DMA_RING_DEPTH) (r : ρ) :
    Expansion (Camera.system slotArg) ((system ρ).restrict (Steady r)) shown (shownTo r) where
  rel t s := Between r s t
  init t hi := ⟨_, rfl, by rw [show t = Camera.initial from hi]; exact ⟨agree_initial r, rfl, rfl⟩⟩
  step _ _ _ _ h ht := h.path hp ht

end

/-- A connection that obtains nothing from the slot being filled is shown, in the runs of
any number of connections with each access a step, what it is shown in those of the
pipeline, with each call a step and no other connection: the same events in the same
order, with the same frames and the same bytes. -/
theorem frames_atomic [DecidableEq ρ] [Usize] {slotArg : Nat → Nat}
    (hp : ∀ k, slotArg k % DMA_RING_DEPTH = k % DMA_RING_DEPTH) (r : ρ)
    (events : List (StreamEvent UInt8)) :
    (∃ h s, Run (system ρ) h s ∧ Took (Steady r) h ∧ trace (shownTo r) h = events) ↔
      ∃ h t, Run (Camera.system slotArg) h t ∧ trace shown h = events := by
  rw [← mem_traces_restrict]
  constructor
  · intro he
    exact (simulation hp r).traces_subset (fun _ _ _ _ h hs => h.shown_eq hs.1 hs.2) he
  · intro he
    exact (expansion hp r).traces_subset he

/-- A driver that counts its frames in 32 bits, and a frame of one byte, access by access. -/
theorem frame_atomic : ∃ h s, Run (@system Unit _ esp32) h s ∧ Took (Steady ()) h ∧
    trace (shownTo ()) h = [.written 0 0xAA, .completed 1, .obtained [0xAA], .sent 0xAA] := by
  let _ := esp32
  have hbyte := take_one_write Camera.initial.ring (show 0 < DMA_RING_DEPTH by decide) 0xAA
  have hhead : ((Camera.initial.ring.write 0 0 0xAA).slot 0)[0]? = some 0xAA := by
    rw [← List.getElem?_take_of_lt Nat.one_pos, hbyte]
    rfl
  obtain ⟨buf', hr⟩ := run_first_frame (countedSlot 32) 0xAA 1
  have hi : Camera.Inv _ := (Camera.refines (countedSlot_mod (by decide))).inv_run hr
  have hframe := hi.currentFrameFrom
  simp only [Camera.lastLen, Capture.latestLen, Capture.clamp, Option.map_some, Option.getD_some,
    min_one_frameSize, Nat.one_ne_zero, if_false, show (1 + 1) % DMA_RING_DEPTH = 0 from rfl] at hframe
  have h₁ := hr.next (.acquire rfl hframe)
  simp only [Loan.ofSlice, Nat.one_ne_zero, if_false, hbyte] at h₁
  have h₂ := h₁.next (.transmit rfl (Loan.send_one hbyte _))
  refine (frames_atomic (countedSlot_mod (by decide)) () _).mpr ⟨_, _, h₂, ?_⟩
  simp [trace_cons, trace_nil, shown, hframe, Camera.sentBy, Except.toOption, StreamEvent.ofSlice,
    hbyte, hhead]

end SrkOS.Proof.CameraStreams
