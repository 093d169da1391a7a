import SrkOS.Framework.DoubleBuffer
import SrkOS.Framework.Execution

/-!
# What a double buffer sends

The elements sent in a run, over all of its loans. If no capture is completed while a
loan is out, and each is given back once all of it has been sent, these are the captures
that were the latest when they were lent, whole and one after the other, but for what
remains of the last (`run_sent`).
-/

namespace Framework

variable {ι κ α : Type}

/-- What is still to be sent of a loan. -/
def Loan.remaining (l : Loan ι α) : List α := l.lent.drop l.sent.length

/-- What is still to be sent of the slice on loan, if there is one. -/
def remaining (loan : Option (Loan ι α)) : List α := (loan.map Loan.remaining).getD []

theorem remaining_ofSlice (mem : ι → List α) (sl : Slice ι) :
    remaining (Loan.ofSlice mem sl) = sl.read mem := by
  cases sl with
  | empty => rfl
  | of buf len =>
    rw [Loan.ofSlice]
    by_cases h0 : len = 0
    · rw [if_pos h0, h0]
      rfl
    · rw [if_neg h0]
      rfl

/-- A slice that shows one element is sent to its end with that. -/
theorem Loan.sent_one {mem : ι → List α} {sl : Slice ι} {x : α} (h : sl.read mem = [x]) :
    ∃ l l', Loan.ofSlice mem sl = some l ∧ l.send mem = some l' ∧ l'.sent = [x] ∧
      l'.remaining = [] := by
  cases sl with
  | empty => cases h
  | of buf len =>
    rw [Slice.read_of] at h
    have h0 : len ≠ 0 := by
      rintro rfl
      cases h
    have hhead : (mem buf)[0]? = some x := by
      rw [← List.getElem?_take_of_lt (Nat.pos_of_ne_zero h0), h]
      rfl
    refine ⟨⟨buf, len, [x], []⟩, ⟨buf, len, [x], [x]⟩, ?_, ?_, rfl, rfl⟩
    · rw [Loan.ofSlice, if_neg h0, h]
    · simp only [Loan.send, List.length_nil, Nat.pos_of_ne_zero h0, if_true, hhead,
        Option.map_some, List.nil_append]

theorem remaining_map (f : ι → κ) (loan : Option (Loan ι α)) :
    remaining (loan.map (Loan.map f)) = remaining loan := by
  cases loan <;> rfl

/-- What is seen of a producer, and of a consumer that sends what it is lent. -/
inductive StreamEvent (α : Type)
  | written (i : Nat) (x : α)
  | completed (len : Nat)
  | obtained (xs : List α)
  | sent (x : α)
  | released
  deriving DecidableEq

/-- A call that returns a slice; nothing is seen of one that returns the empty slice. -/
def StreamEvent.ofSlice (mem : ι → List α) : Slice ι → Option (StreamEvent α)
  | .empty => none
  | .of buf len => some (.obtained ((mem buf).take len))

namespace DoubleBuffer

/-- The element that a step sends. -/
def sentBy (s : State α) : Action → Option α
  | .transmit => s.loan.bind fun l => (s.mem l.buf)[l.sent.length]?
  | _ => none

/-- The valid part of the latest capture, if the step lends it. -/
def lentBy (s : State α) : Action → Option (List α)
  | .acquire => some (Capture.latest s.last)
  | _ => none

/-- The step does not give back a slice that has not been sent. -/
def Finished (s : State α) (a : Action) : Prop := a = .release → remaining s.loan = []

/-- Sending the next element of a loan leaves the others. -/
theorem remaining_send {mem : ι → List α} {l l' : Loan ι α} (hi : l.Intact mem)
    (hl : l.send mem = some l') :
    ∃ x, (mem l.buf)[l.sent.length]? = some x ∧ l.remaining = x :: l'.remaining := by
  simp only [Loan.send, Option.ite_none_right_eq_some, Option.map_eq_some_iff] at hl
  obtain ⟨hlt, x, hx, rfl⟩ := hl
  refine ⟨x, hx, ?_⟩
  have hlent : l.lent[l.sent.length]? = some x := by
    rw [← hi.1, List.getElem?_take_of_lt hlt, hx]
  obtain ⟨hlen, hget⟩ := List.getElem?_eq_some_iff.mp hlent
  simp only [Loan.remaining, List.length_append, List.length_singleton]
  rw [List.drop_eq_getElem_cons hlen, hget]

/-- A step sends from what remains, and lends what remains then. -/
theorem Step.remaining {s s' : State α} {a : Action} (hs : Step s a s') (hsound : s.Sound)
    (hi : s.Intact) (hf : Finished s a) :
    (sentBy s a).toList ++ Framework.remaining s'.loan =
      Framework.remaining s.loan ++ (lentBy s a).toList.flatten := by
  cases hs with
  | write bs => simp [sentBy, lentBy]
  | complete len => simp [sentBy, lentBy]
  | acquire hn =>
    have hread := ready_read hsound
    rw [← remaining_ofSlice] at hread
    simp only [sentBy, lentBy, hn, hread]
    simp [Framework.remaining]
  | transmit h hl =>
    obtain ⟨x, hx, hrem⟩ := remaining_send (hi _ h).2 hl
    simp [sentBy, lentBy, h, hx, Framework.remaining, hrem]
  | release =>
    rw [hf rfl]
    simp [sentBy, lentBy, Framework.remaining]

/-- In every run in which no capture is completed while a loan is out, and every loan is
sent before it is given back: what was sent, with what is still to be sent, are the
captures lent. -/
theorem run_sent {h : List (State α × Action)} {s : State α} (hr : Run (system α) h s)
    (hq : Took Quiet h) (hf : Took Finished h) :
    trace sentBy h ++ remaining s.loan = (trace lentBy h).flatten := by
  induction hr with
  | start hi =>
    rw [hi.2.2]
    rfl
  | @next h s s' a hr hs ih =>
    have hq := (took_cons.mp hq).2
    obtain ⟨hfa, hf⟩ := took_cons.mp hf
    have hi := ((always_intact_iff hr).mpr hq).last
    have hstep := hs.remaining (run_sound hr) hi hfa
    calc trace sentBy ((s, a) :: h) ++ remaining s'.loan
      _ = trace sentBy h ++ ((sentBy s a).toList ++ remaining s'.loan) := by
        rw [trace_cons, List.append_assoc]
      _ = trace sentBy h ++ remaining s.loan ++ (lentBy s a).toList.flatten := by
        rw [hstep, List.append_assoc]
      _ = (trace lentBy ((s, a) :: h)).flatten := by
        rw [ih hq hf, trace_cons, List.flatten_append]

end DoubleBuffer

end Framework
