import Mathlib.Logic.Function.Iterate
import SrkOS.Proof.Audio.PingPong

/-!
# Reading and streaming captures

`capture_latest`: readers see the latest capture as it was at its swap, in the
half that flips with every swap.

`quiescent_iff`: samples being sent are not overwritten exactly as long as there
is no swap meanwhile. `swap` knows nothing of the slices handed out, and one swap
makes the half on loan the active one (`sample_overwritten`).
-/

namespace SrkOS.Proof.Audio

open Framework SrkOS.Impl SrkOS.Impl.Audio

/-! ## The ready half -/

def isSwap : Action → Bool
  | .swap _ => true
  | _ => false

/-- The number of swaps of a run. -/
def swaps (h : List (State × Action)) : Nat := h.countP fun e => isSwap e.2

theorem ready_step {s s' : State} {a : Action} (hs : Step s a s') :
    s'.state.ready = if isSwap a then s.state.ready.other else s.state.ready := by
  cases hs with
  | swap len => exact swap_ready s.state len
  | write | acquire | transmit | release => rfl

/-- The ready half flips with every swap. -/
theorem ready_swaps {h : List (State × Action)} {s : State} (hr : Run system h s) :
    s.state.ready = PingPong.other^[swaps h] .pong := by
  induction hr with
  | start hi => rw [hi]; rfl
  | @next h s s' a hr hs ih =>
    rw [ready_step hs, ih]
    by_cases ha : isSwap a = true
    · have hc : swaps ((s, a) :: h) = swaps h + 1 := List.countP_cons_of_pos ha
      rw [if_pos ha, hc, Function.iterate_succ_apply']
    · have hc : swaps ((s, a) :: h) = swaps h := List.countP_cons_of_neg ha
      rw [if_neg ha, hc]

/-- In every run: the ready half is not the one being written, and flips with
every swap; `ready_len` is the clamped length of the last swap; and what
`ready_buffer_from` shows is the valid part of what the half completed last held
at its swap. -/
theorem capture_latest {h : List (State × Action)} {s : State} (hr : Run system h s) :
    s.state.ready ≠ s.state.active ∧
    s.state.ready = PingPong.other^[swaps h] .pong ∧
    s.state.readyLen =
      (match s.last with
        | none => 0
        | some c => min c.len I2S_FRAME_SIZE) ∧
    ∃ sl, s.state.readyBufferFrom s.frames = .ok sl ∧
      sl.read s.frames.half =
        match s.last with
        | none => []
        | some c => c.bytes.take (min c.len I2S_FRAME_SIZE) := by
  have hi : Inv s := refines.inv_run hr
  refine ⟨other_ne _, ready_swaps hr, ?_, ?_⟩
  · rw [hi, lastLen]
    cases s.last <;> rfl
  · obtain ⟨sl, hsl, hread⟩ := readyBufferFrom_latest hr
    refine ⟨sl, hsl, ?_⟩
    rw [hread]
    cases s.last <;> rfl

/-- A run goes on with a capture: the byte it starts with, and its swap. -/
theorem run_capture {h : List (State × Action)} {s : State} (hr : Run system h s) (byte : UInt8)
    (len : Nat) :
    Run system
      (({ s with frames := s.frames.write s.state.active 0 byte }, .swap len) ::
        (s, .write 0 byte) :: h)
      ⟨s.state.swap len, s.frames.write s.state.active 0 byte,
        some ⟨(s.frames.write s.state.active 0 byte).half s.state.active, len⟩, s.loan⟩ :=
  (hr.next (.write s 0 byte)).next (.swap _ len)

/-- The first capture is in ping. -/
theorem run_first_capture (byte : UInt8) (len : Nat) :
    Run system
      [({ initial with frames := initial.frames.write .ping 0 byte }, .swap len),
        (initial, .write 0 byte)]
      ⟨PingPongState.new.swap len, initial.frames.write .ping 0 byte,
        some ⟨(initial.frames.write .ping 0 byte).half .ping, len⟩, none⟩ :=
  run_capture (.start rfl) byte len

theorem min_one_frameSize : min 1 I2S_FRAME_SIZE = 1 := by decide

/-- A capture of one byte. -/
theorem capture_latest_one : ∃ h s, Run system h s ∧
    ∃ sl, s.state.readyBufferFrom s.frames = .ok sl ∧ sl.read s.frames.half = [0xAA] := by
  have hr := run_first_capture 0xAA 1
  obtain ⟨sl, hsl, hread⟩ := (capture_latest hr).2.2.2
  refine ⟨_, _, hr, sl, hsl, ?_⟩
  simp only [min_one_frameSize] at hread
  rw [hread]
  exact take_one_write _ _ 0xAA

/-! ## Streaming -/

/-- The slice being sent is not in the active half; it still shows the capture
it was obtained from, and so does every byte sent. -/
def Quiescent (s : State) : Prop :=
  ∀ l, s.loan = some l → s.state.active ≠ l.buf ∧ l.Intact s.frames.half

/-- The step does not swap the halves while a slice is being sent. -/
def NoSwap (s : State) (a : Action) : Prop := (∃ len, a = .swap len) → s.loan = none

theorem quiescent_iff_intact {s : State} : (abs s).Intact ↔ Quiescent s := by
  simp only [DoubleBuffer.State.Intact, Quiescent, abs, Option.map_eq_some_iff,
    forall_exists_index, and_imp, forall_apply_eq_imp_iff₂]
  refine forall₂_congr fun l _ => and_congr ?_ (Loan.intact_map (abs_mem s l.buf))
  rw [not_iff_not, ← isPong_active]
  refine ⟨fun he => ?_, congrArg isPong⟩
  rw [← halfOf_isPong s.state.active, ← halfOf_isPong l.buf]
  exact congrArg halfOf he

theorem noSwap_iff_quiet (s : State) (a : Action) :
    DoubleBuffer.Quiet (abs s) (act a) ↔ NoSwap s a := by
  simp only [DoubleBuffer.Quiet, NoSwap, abs, Option.map_eq_none_iff]
  cases a <;> simp only [act, reduceCtorEq, exists_false, false_implies, exists_eq', true_implies,
    DoubleBuffer.Action.complete.injEq, Action.swap.injEq]

/-- In every run, the samples being sent stay in a quiescent half, in all of its
states, exactly when there is no swap while samples are being sent. -/
theorem quiescent_iff {h : List (State × Action)} {s : State} (hr : Run system h s) :
    Always Quiescent h s ↔ Took NoSwap h :=
  refines.always_took_iff (fun _ _ => quiescent_iff_intact) noSwap_iff_quiet
    (fun _ _ => DoubleBuffer.always_intact_iff) hr

/-- The first byte of a capture is lent to `wifi_task`. -/
theorem run_loan (byte : UInt8) : ∃ state frames last h,
    Run system h ⟨state, frames, last, some ⟨.ping, 1, [byte], []⟩⟩ ∧
    state.active = .pong ∧ (frames.half .ping).take 1 = [byte] ∧ Took NoSwap h := by
  have hr := run_first_capture byte 1
  have hb := take_one_write initial.frames .ping byte
  have hacq := Step.acquire rfl (Inv.readyBufferFrom (refines.inv_run hr))
  simp only [lastLen, Capture.latestLen, Capture.clamp, Option.map_some, Option.getD_some,
    min_one_frameSize, Nat.one_ne_zero, if_false, Loan.ofSlice,
    show (PingPongState.new.swap 1).ready = .ping from rfl, hb] at hacq
  refine ⟨_, _, _, _, hr.next hacq, rfl, hb, ?_⟩
  exact took_cons.mpr ⟨fun _ => rfl, took_cons.mpr ⟨fun _ => rfl,
    took_cons.mpr ⟨fun _ => rfl, took_nil _⟩⟩⟩

/-- A byte of a capture is lent, and sent as it was. -/
theorem sample_sent : ∃ h s, Run system h s ∧
    (∃ l, s.loan = some l ∧ l.sent = [0xAA]) ∧ Always Quiescent h s := by
  obtain ⟨state, frames, last, h, hr, -, hb, ht⟩ := run_loan 0xAA
  have hr' := hr.next (.transmit rfl (Loan.send_one hb _))
  refine ⟨_, _, hr', ⟨_, rfl, rfl⟩, (quiescent_iff hr').mpr (took_cons.mpr ⟨?_, ht⟩)⟩
  simp [NoSwap]

/-- A byte of a capture is lent; after a swap, the DMA engine overwrites it
before it is sent. -/
theorem sample_overwritten : ∃ h s, Run system h s ∧
    (∃ l, s.loan = some l ∧ l.buf = s.state.active ∧ l.lent = [0xAA] ∧ l.sent = [0xBB]) ∧
    ¬ Always Quiescent h s := by
  obtain ⟨state, frames, last, h, hr, hactive, -, -⟩ := run_loan 0xAA
  have hping : (state.swap 0).active = .ping := by rw [swap_active, hactive]; rfl
  have hb : ((frames.write (state.swap 0).active 0 0xBB).half .ping).take 1 = [0xBB] := by
    rw [hping]
    exact take_one_write frames .ping 0xBB
  have hw := (hr.next (.swap _ 0)).next (.write _ 0 0xBB)
  have ht := hw.next (.transmit rfl (Loan.send_one hb _))
  exact ⟨_, _, ht, ⟨_, rfl, hping.symm, rfl, rfl⟩, fun hq => (hq.last _ rfl).1 hping⟩

end SrkOS.Proof.Audio
