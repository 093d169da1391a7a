import SrkOS.Framework.Sending
import SrkOS.Proof.Camera.Stream

/-!
# The video stream

What `wifi_task` sends in a run, over all of the frames it obtains. As long as no frame
is completed while one is being sent, and each is sent to its end, this is the frames
that were the latest when they were obtained, whole and one after the other
(`frames_sent`).
-/

namespace SrkOS.Proof.Camera

open Framework SrkOS.Impl SrkOS.Impl.Camera

/-- The byte that a step sends. -/
def sentBy (s : State) : Action → Option UInt8
  | .transmit => s.loan.bind fun l => (s.ring.slot l.buf)[l.sent.length]?
  | _ => none

/-- The valid part of the latest frame, if the step obtains it. -/
def obtainedBy (s : State) : Action → Option (List UInt8)
  | .acquire => some (Capture.latest (s.last.map (Capture.clamp JPEG_FRAME_SIZE)))
  | _ => none

/-- The step does not end the sending of a frame before its end. -/
def Finished (s : State) (a : Action) : Prop := a = .release → remaining s.loan = []

theorem finished_of_ne {s : State} {a : Action} (h : a ≠ .release) : Finished s a :=
  fun ha => absurd ha h

theorem sentBy_abs {s : State} (hi : Inv s) (a : Action) :
    DoubleBuffer.sentBy (abs s) (act a) = sentBy s a := by
  cases a with
  | transmit =>
    simp only [act, DoubleBuffer.sentBy, sentBy]
    cases hl : s.loan with
    | none => simp [abs, hl]
    | some l =>
      have hmem : (abs s).mem (slotBit l.buf) = s.ring.slot l.buf := abs_mem (hi.loan l hl)
      show ((s.loan.map (Loan.map slotBit)).bind fun l => ((abs s).mem l.buf)[l.sent.length]?) = _
      rw [hl, Option.map_some, Option.bind_some, Option.bind_some, ← hmem]
      rfl
  | write | complete | acquire | release => rfl

theorem lentBy_abs (s : State) (a : Action) :
    DoubleBuffer.lentBy (abs s) (act a) = obtainedBy s a := by
  cases a <;> rfl

theorem finished_abs (s : State) (a : Action) :
    DoubleBuffer.Finished (abs s) (act a) ↔ Finished s a := by
  simp only [DoubleBuffer.Finished, Finished, abs, remaining_map]
  cases a <;> simp [act]

/-- What the steps of `wifi_task` meet when it sends frames to their ends, undisturbed. -/
def Orderly (s : State) (a : Action) : Prop := NoCompletion s a ∧ Finished s a

/-- A run that sends nothing obtains a frame of one byte, sends it and gives it back. -/
theorem run_transmitted [Usize] {slotArg : Nat → Nat}
    (hp : ∀ k, slotArg k % DMA_RING_DEPTH = k % DMA_RING_DEPTH) {h : List (State × Action)}
    {s : State} (hr : Run (system slotArg) h s) (hloan : s.loan = none) {byte : UInt8}
    (hlatest : Capture.latest (s.last.map (Capture.clamp JPEG_FRAME_SIZE)) = [byte])
    (hok : Took Orderly h) :
    ∃ h' s', Run (system slotArg) h' s' ∧ s'.loan = none ∧ Took Orderly h' ∧
      trace obtainedBy h' = trace obtainedBy h ++ [[byte]] := by
  obtain ⟨sl, hframe, hread⟩ := currentFrameFrom_latest hp hr
  obtain ⟨l, l', hl, hsend, -, hrest⟩ := Loan.sent_one (hread.trans hlatest)
  have h₁ := hr.next (.acquire hloan hframe)
  rw [hl] at h₁
  have h₂ := (h₁.next (.transmit rfl hsend)).next (.release _)
  refine ⟨_, _, h₂, rfl, ?_, ?_⟩
  · refine took_cons.mpr ⟨⟨by simp [NoCompletion], fun _ => hrest⟩, ?_⟩
    refine took_cons.mpr ⟨⟨by simp [NoCompletion], finished_of_ne (by simp)⟩, ?_⟩
    exact took_cons.mpr ⟨⟨noCompletion_of_loan hloan, finished_of_ne (by simp)⟩, hok⟩
  · simp only [trace_cons, obtainedBy, hlatest, Option.toList_none, Option.toList_some,
      List.append_nil]

end SrkOS.Proof.Camera
