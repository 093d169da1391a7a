import SrkOS.Framework.Sending
import SrkOS.Proof.Audio.Stream

/-!
# The audio stream

What `wifi_task` sends in a run, over all of the captures it obtains. As long as the
halves are not swapped while samples are being sent, and these are sent to their end, it
is the captures that were the latest when they were obtained, whole and one after the
other (`captures_sent`).
-/

namespace SrkOS.Proof.Audio

open Framework SrkOS.Impl SrkOS.Impl.Audio

/-- The byte that a step sends. -/
def sentBy (s : State) : Action → Option UInt8
  | .transmit => s.loan.bind fun l => (s.frames.half l.buf)[l.sent.length]?
  | _ => none

/-- The valid part of the latest capture, if the step obtains it. -/
def obtainedBy (s : State) : Action → Option (List UInt8)
  | .acquire => some (Capture.latest (s.last.map (Capture.clamp I2S_FRAME_SIZE)))
  | _ => none

/-- The step does not end the sending of samples before their end. -/
def Finished (s : State) (a : Action) : Prop := a = .release → remaining s.loan = []

theorem finished_of_ne {s : State} {a : Action} (h : a ≠ .release) : Finished s a :=
  fun ha => absurd ha h

theorem sentBy_abs (s : State) (a : Action) : DoubleBuffer.sentBy (abs s) (act a) = sentBy s a := by
  cases a with
  | transmit =>
    show ((s.loan.map (Loan.map isPong)).bind fun l => ((abs s).mem l.buf)[l.sent.length]?) = _
    cases hl : s.loan with
    | none => simp [sentBy, hl]
    | some l =>
      have hmem := abs_mem s l.buf
      rw [sentBy, hl, Option.map_some, Option.bind_some, Option.bind_some, ← hmem]
      rfl
  | write | swap | acquire | release => rfl

theorem lentBy_abs (s : State) (a : Action) :
    DoubleBuffer.lentBy (abs s) (act a) = obtainedBy s a := by
  cases a <;> rfl

theorem finished_abs (s : State) (a : Action) :
    DoubleBuffer.Finished (abs s) (act a) ↔ Finished s a := by
  simp only [DoubleBuffer.Finished, Finished, abs, remaining_map]
  cases a <;> simp [act]

/-- What the steps of `wifi_task` meet when it sends captures to their ends, undisturbed. -/
def Orderly (s : State) (a : Action) : Prop := NoSwap s a ∧ Finished s a

/-- A run that sends nothing obtains a capture of one byte, sends it and gives it back. -/
theorem run_transmitted {h : List (State × Action)} {s : State} (hr : Run system h s)
    (hloan : s.loan = none) {byte : UInt8}
    (hlatest : Capture.latest (s.last.map (Capture.clamp I2S_FRAME_SIZE)) = [byte])
    (hok : Took Orderly h) :
    ∃ h' s', Run system h' s' ∧ s'.loan = none ∧ Took Orderly h' ∧
      trace obtainedBy h' = trace obtainedBy h ++ [[byte]] := by
  obtain ⟨sl, hslice, hread⟩ := readyBufferFrom_latest hr
  obtain ⟨l, l', hl, hsend, -, hrest⟩ := Loan.sent_one (hread.trans hlatest)
  have h₁ := hr.next (.acquire hloan hslice)
  rw [hl] at h₁
  have h₂ := (h₁.next (.transmit rfl hsend)).next (.release _)
  refine ⟨_, _, h₂, rfl, ?_, ?_⟩
  · refine took_cons.mpr ⟨⟨by simp [NoSwap], fun _ => hrest⟩, ?_⟩
    refine took_cons.mpr ⟨⟨by simp [NoSwap], finished_of_ne (by simp)⟩, ?_⟩
    exact took_cons.mpr ⟨⟨fun _ => hloan, finished_of_ne (by simp)⟩, hok⟩
  · simp only [trace_cons, obtainedBy, hlatest, Option.toList_none, Option.toList_some,
      List.append_nil]

/-- A run that sends nothing goes on with a capture of one byte, sent to its end. -/
theorem run_capture_sent {h : List (State × Action)} {s : State} (hr : Run system h s)
    (hloan : s.loan = none) (hok : Took Orderly h) (byte : UInt8) :
    ∃ h' s', Run system h' s' ∧ s'.loan = none ∧ Took Orderly h' ∧
      trace obtainedBy h' = trace obtainedBy h ++ [[byte]] := by
  obtain ⟨h', s', hr', hloan', hok', htrace⟩ := run_transmitted (run_capture hr byte 1) hloan
    (take_one_write s.frames s.state.active byte)
    (took_cons.mpr ⟨⟨fun _ => hloan, finished_of_ne (by simp)⟩,
      took_cons.mpr ⟨⟨fun _ => hloan, finished_of_ne (by simp)⟩, hok⟩⟩)
  refine ⟨h', s', hr', hloan', hok', ?_⟩
  simp only [htrace, trace_cons, obtainedBy, Option.toList_none, List.append_nil]

/-- Captures of one byte each can be sent one after the other. -/
theorem exists_captures_sent (bytes : List UInt8) : ∃ h s, Run system h s ∧ s.loan = none ∧
    Took Orderly h ∧ trace obtainedBy h = bytes.map fun byte => [byte] :=
  Run.exists_repeated (fun _ _ byte hr hloan hok => run_capture_sent hr hloan hok byte) rfl rfl
    bytes

/-- In every run in which the halves are not swapped while samples are being sent, and
these are sent to their end: the bytes sent, with those that are still to be sent of the
last capture, are the captures obtained, each of them the valid part of the latest one,
one after the other. -/
theorem captures_sent {h : List (State × Action)} {s : State} (hr : Run system h s)
    (hq : Took NoSwap h) (hf : Took Finished h) :
    trace sentBy h ++ remaining s.loan = (trace obtainedBy h).flatten := by
  have hsent := DoubleBuffer.run_sent (refines.run hr)
    (refines.took_iff.mpr fun e he => (noSwap_iff_quiet e.1 e.2).mpr (hq e he))
    (refines.took_iff.mpr fun e he => (finished_abs e.1 e.2).mpr (hf e he))
  rw [refines.trace_history (fun s a _ => sentBy_abs s a) hr,
    refines.trace_history (fun s a _ => lentBy_abs s a) hr] at hsent
  rw [← hsent]
  show _ = _ ++ remaining (s.loan.map (Loan.map isPong))
  rw [remaining_map]

/-- Two captures of one byte each, sent one after the other. -/
theorem two_captures_sent : ∃ h s, Run system h s ∧ s.loan = none ∧
    trace sentBy h = [0xAA, 0xBB] := by
  obtain ⟨h, s, hr, hloan, hok, hobtained⟩ := exists_captures_sent [0xAA, 0xBB]
  refine ⟨h, s, hr, hloan, ?_⟩
  have hsent := captures_sent hr (fun e he => (hok e he).1) (fun e he => (hok e he).2)
  rw [hloan, hobtained, remaining, Option.map_none, Option.getD_none, List.append_nil] at hsent
  exact hsent

end SrkOS.Proof.Audio
