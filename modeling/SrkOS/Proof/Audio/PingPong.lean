import SrkOS.Impl.AudioSystem

/-!
# The ping-pong pair is a double buffer

`active_is_pong` names the half being filled, and the single `ready_len` is the
length of the last swap (`Inv`): it is overwritten by the swap that leaves the
half it describes. So the pipeline refines the double buffer (`refines`):
`ready_buffer_from` never panics, and what it shows is the last capture
(`readyBufferFrom_latest`).
-/

namespace SrkOS.Proof.Audio

open Framework SrkOS.Impl SrkOS.Impl.Audio

/-! ## The methods -/

/-- The half `active_is_pong` stands for. -/
def halfOf (isPong : Bool) : PingPong := if isPong then .pong else .ping

/-- The value of `active_is_pong` for a half. -/
def isPong (half : PingPong) : Bool := decide (half = .pong)

theorem isPong_halfOf (b : Bool) : isPong (halfOf b) = b := by cases b <;> rfl

theorem halfOf_isPong (half : PingPong) : halfOf (isPong half) = half := by cases half <;> rfl

theorem other_ne (half : PingPong) : half.other ≠ half := by cases half <;> decide

theorem isPong_other (half : PingPong) : isPong half.other = !isPong half := by cases half <;> rfl

theorem isPong_active (state : PingPongState) : isPong state.active = state.activeIsPong :=
  isPong_halfOf _

theorem swap_active (state : PingPongState) (len : Nat) :
    (state.swap len).active = state.active.other := by
  obtain ⟨b, l⟩ := state
  cases b <;> rfl

theorem swap_ready (state : PingPongState) (len : Nat) :
    (state.swap len).ready = state.ready.other := by
  rw [PingPongState.ready, swap_active, PingPongState.ready]

/-- After the toggle, the half that was active is the ready one. -/
theorem toggleActive_ready (state : PingPongState) : state.toggleActive.ready = state.active := by
  obtain ⟨b, l⟩ := state
  cases b <;> rfl

theorem readySlice_ok (state : PingPongState) (frames : I2sFrames) {len : Nat}
    (h : len ≤ I2S_FRAME_SIZE) : state.readySlice frames len = .ok (.of state.ready len) := by
  unfold PingPongState.readySlice
  cases state.ready with
  | ping => exact sliceTo_ok h
  | pong => exact sliceTo_ok h

theorem readyBufferFrom_ok {state : PingPongState} (frames : I2sFrames)
    (h : state.readyLen ≤ I2S_FRAME_SIZE) :
    state.readyBufferFrom frames =
      .ok (if state.readyLen = 0 then .empty else .of state.ready state.readyLen) := by
  simp only [PingPongState.readyBufferFrom, readySlice_ok state frames h]
  split <;> rfl

/-- The DMA engine's writes to a half leave the other one alone. -/
theorem half_write_ne (frames : I2sFrames) {half half' : PingPong} (h : half' ≠ half) (i : Nat)
    (byte : UInt8) : (frames.write half i byte).half half' = frames.half half' := by
  cases half <;> cases half' <;> first | rfl | exact absurd rfl h

/-- A byte the DMA engine has written to the start of a half. -/
theorem take_one_write (frames : I2sFrames) (half : PingPong) (byte : UInt8) :
    ((frames.write half 0 byte).half half).take 1 = [byte] := by
  cases half with
  | ping => exact take_one_setIfInBounds frames.ping (by decide) byte
  | pong => exact take_one_setIfInBounds frames.pong (by decide) byte

/-! ## The invariant -/

/-- The number of valid bytes of the last capture, 0 before the first. -/
def lastLen (s : State) : Nat := Capture.latestLen (s.last.map (Capture.clamp I2S_FRAME_SIZE))

/-- `ready_len` is that of the last swap. -/
def Inv (s : State) : Prop := s.state.readyLen = lastLen s

theorem lastLen_le (s : State) : lastLen s ≤ I2S_FRAME_SIZE := Capture.latestLen_clamp_le _ _

theorem inv_initial : Inv initial := rfl

variable {s s' : State} {a : Action}

theorem Inv.step (h : Inv s) (hs : Step s a s') : Inv s' := by
  cases hs with
  | swap len => rfl
  | write | acquire | transmit | release => exact h

theorem Inv.readyBufferFrom (h : Inv s) :
    s.state.readyBufferFrom s.frames =
      .ok (if lastLen s = 0 then .empty else .of s.state.ready (lastLen s)) := by
  rw [← h]
  exact readyBufferFrom_ok s.frames (by rw [h]; exact lastLen_le s)

/-! ## Refinement -/

/-- The double buffer of the pipeline. -/
def abs (s : State) : DoubleBuffer.State UInt8 where
  mem b := s.frames.half (halfOf b)
  fill := s.state.activeIsPong
  last := s.last.map (Capture.clamp I2S_FRAME_SIZE)
  loan := s.loan.map (Loan.map isPong)

def act : Action → DoubleBuffer.Action
  | .write _ _ => .write
  | .swap len => .complete (min len I2S_FRAME_SIZE)
  | .acquire => .acquire
  | .transmit => .transmit
  | .release => .release

theorem abs_mem (s : State) (half : PingPong) :
    (abs s).mem (isPong half) = s.frames.half half := by
  simp only [abs, halfOf_isPong]

/-- What is ready, by the length and the half of the pair. -/
theorem abs_ready (s : State) :
    (abs s).ready =
      if lastLen s = 0 then .empty else .of (isPong s.state.ready) (lastLen s) := by
  rw [PingPongState.ready, isPong_other, isPong_active]
  rfl

theorem abs_acquire (h : Inv s) {sl : Slice PingPong}
    (hf : s.state.readyBufferFrom s.frames = .ok sl) :
    (Loan.ofSlice s.frames.half sl).map (Loan.map isPong) =
      Loan.ofSlice (abs s).mem (abs s).ready := by
  rw [h.readyBufferFrom, Except.ok.injEq] at hf
  rw [abs_ready, ← hf]
  split
  · rfl
  · exact Loan.map_ofSlice (abs_mem s _)

theorem Inv.abs_step (h : Inv s) (hs : Step s a s') :
    DoubleBuffer.Step (abs s) (act a) (abs s') := by
  cases hs with
  | write i byte =>
    have hmem : (abs { s with frames := s.frames.write s.state.active i byte }).mem =
        Function.update (abs s).mem (abs s).fill
          ((s.frames.write s.state.active i byte).half s.state.active) := by
      funext b
      by_cases hb : b = (abs s).fill
      · subst hb
        rw [Function.update_self]
        rfl
      · rw [Function.update_of_ne hb]
        refine half_write_ne _ (fun he => hb ?_) i byte
        rw [← isPong_halfOf b, he, isPong_active]
        rfl
    have := DoubleBuffer.Step.write (abs s)
      ((s.frames.write s.state.active i byte).half s.state.active)
    rwa [← hmem] at this
  | swap len =>
    have hfill : (abs { s with
        state := s.state.swap len, last := some ⟨s.frames.half s.state.active, len⟩ }).fill =
        !(abs s).fill := Bool.xor_true _
    have := DoubleBuffer.Step.complete (abs s) (min len I2S_FRAME_SIZE)
    rw [← hfill] at this
    exact this
  | acquire hn hf =>
    have := DoubleBuffer.Step.acquire (abs s) (by simp only [abs, hn, Option.map_none])
    rwa [← abs_acquire h hf] at this
  | @transmit l l' hl hl' =>
    have hsend : (l.map isPong).send (abs s).mem = some (l'.map isPong) := by
      rw [← Loan.map_send (abs_mem s l.buf), hl', Option.map_some]
    exact DoubleBuffer.Step.transmit (abs s) (by simp only [abs, hl, Option.map_some]) hsend
  | release => exact .release (abs s)

/-- The pipeline is a double buffer. -/
def refines : Refines system (DoubleBuffer.system UInt8) where
  inv := Inv
  abs := abs
  act := act
  init s hi := by rw [hi]; exact ⟨inv_initial, rfl, rfl, rfl⟩
  step _ _ _ h hs := ⟨h.step hs, h.abs_step hs⟩

/-- What `ready_buffer_from` shows is the last capture. -/
theorem readyBufferFrom_latest {h : List (State × Action)} (hr : Run system h s) :
    ∃ sl, s.state.readyBufferFrom s.frames = .ok sl ∧
      sl.read s.frames.half = Capture.latest (s.last.map (Capture.clamp I2S_FRAME_SIZE)) := by
  have hi : Inv s := refines.inv_run hr
  have hl : (abs s).ready.read (abs s).mem = Capture.latest (abs s).last :=
    DoubleBuffer.run_latest (refines.run hr)
  refine ⟨_, hi.readyBufferFrom, ?_⟩
  rw [abs_ready] at hl
  show _ = Capture.latest (abs s).last
  rw [← hl]
  split
  · rfl
  · simp only [Slice.read_of, abs_mem]

end SrkOS.Proof.Audio
