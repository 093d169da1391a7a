import SrkOS.Framework.System
import SrkOS.Framework.Rust
import Mathlib.Logic.Function.Basic

/-!
# Double buffers

Two buffers, named by `Bool`: a producer overwrites one of them (`fill`) in any
way it likes; when it completes a capture, it goes on with the other one. A
consumer may be lent the latest complete capture (`ready`), whose bytes it then
sends one by one, from the buffer itself, until it gives the loan back.

* `run_latest`: what is ready is the latest complete capture, as it was when it
  was completed, whatever the producer has written since;
* `always_intact_iff`: a loan shows what was lent, in every state of a run,
  exactly when no capture is completed while a loan is out. One completion is
  enough: it sends the producer back to the buffer on loan.
-/

namespace Framework

/-- A complete capture: what the buffer held, and how much of it is valid. -/
structure Capture (α : Type) where
  bytes : List α
  len : Nat

namespace Capture

variable {α : Type}

/-- The valid part of a capture. -/
def valid (c : Capture α) : List α := c.bytes.take c.len

/-- A capture with its length clamped. -/
def clamp (limit : Nat) (c : Capture α) : Capture α := { c with len := min c.len limit }

/-- The length of the latest capture, 0 before the first. -/
def latestLen (last : Option (Capture α)) : Nat := (last.map len).getD 0

/-- The valid part of the latest capture. -/
def latest (last : Option (Capture α)) : List α := (last.map valid).getD []

theorem latestLen_clamp_le (limit : Nat) (last : Option (Capture α)) :
    latestLen (last.map (clamp limit)) ≤ limit := by
  cases last with
  | none => exact Nat.zero_le _
  | some c => exact Nat.min_le_right _ _

end Capture

/-! ## Loans -/

/-- A slice on loan to a consumer: the first `len` elements of the buffer
`buf`, what they were when the slice was lent, and what was sent so far. -/
structure Loan (ι α : Type) where
  buf : ι
  len : Nat
  lent : List α
  sent : List α

namespace Loan

variable {ι κ α : Type}

/-- The loan of a slice, if it is not empty. -/
def ofSlice (mem : ι → List α) : Slice ι → Option (Loan ι α)
  | .empty => none
  | .of buf len => if len = 0 then none else some ⟨buf, len, (mem buf).take len, []⟩

/-- Sending the next element, as the buffer holds it now. -/
def send (mem : ι → List α) (l : Loan ι α) : Option (Loan ι α) :=
  if l.sent.length < l.len then
    (mem l.buf)[l.sent.length]?.map fun x => { l with sent := l.sent ++ [x] }
  else none

/-- The buffer still shows what was lent, and what was sent is of it. -/
def Intact (mem : ι → List α) (l : Loan ι α) : Prop :=
  (mem l.buf).take l.len = l.lent ∧ l.sent <+: l.lent

/-- The buffers renamed. -/
def map (f : ι → κ) (l : Loan ι α) : Loan κ α := ⟨f l.buf, l.len, l.lent, l.sent⟩

theorem intact_of_ofSlice {mem : ι → List α} {sl : Slice ι} {l : Loan ι α}
    (h : ofSlice mem sl = some l) : l.Intact mem := by
  cases sl with
  | empty => simp [ofSlice] at h
  | of buf len =>
    simp only [ofSlice, Option.ite_none_left_eq_some, Option.some.injEq] at h
    obtain ⟨-, rfl⟩ := h
    exact ⟨rfl, List.nil_prefix⟩

theorem buf_of_ofSlice {mem : ι → List α} {buf : ι} {len : Nat} {l : Loan ι α}
    (h : ofSlice mem (.of buf len) = some l) : l.buf = buf := by
  simp only [ofSlice, Option.ite_none_left_eq_some, Option.some.injEq] at h
  rw [← h.2]

theorem buf_of_send {mem : ι → List α} {l l' : Loan ι α} (h : l.send mem = some l') :
    l'.buf = l.buf := by
  simp only [send, Option.ite_none_right_eq_some, Option.map_eq_some_iff] at h
  obtain ⟨-, x, -, rfl⟩ := h
  rfl

/-- Sending the only element of a slice. -/
theorem send_one {mem : ι → List α} {buf : ι} {x : α} (h : (mem buf).take 1 = [x])
    (lent : List α) : send mem ⟨buf, 1, lent, []⟩ = some ⟨buf, 1, lent, [x]⟩ := by
  rw [List.take_one, Option.toList_eq_singleton_iff, List.head?_eq_getElem?] at h
  simp only [send, List.length_nil, Nat.one_pos, if_true, h, Option.map_some, List.nil_append]

/-- The element sent next is the next one of what was lent. -/
theorem Intact.send {mem : ι → List α} {l l' : Loan ι α} (h : l.Intact mem)
    (hs : l.send mem = some l') : l'.Intact mem := by
  simp only [Loan.send, Option.ite_none_right_eq_some, Option.map_eq_some_iff] at hs
  obtain ⟨hlt, x, hx, rfl⟩ := hs
  obtain ⟨hm, hp⟩ := h
  refine ⟨hm, ?_⟩
  have hx' : l.lent[l.sent.length]? = some x := by
    rw [← hm, List.getElem?_take_of_lt hlt]; exact hx
  have hsent : l.sent ++ [x] = l.lent.take (l.sent.length + 1) := by
    rw [List.take_add_one, hx', ← List.prefix_iff_eq_take.mp hp]; rfl
  exact hsent ▸ List.take_prefix _ _

/-- A loan depends only on what its buffer holds. -/
theorem intact_congr {mem mem' : ι → List α} {l : Loan ι α} (h : mem' l.buf = mem l.buf) :
    l.Intact mem' ↔ l.Intact mem := by
  rw [Intact, Intact, h]

section

variable {f : ι → κ} {mem : ι → List α} {mem' : κ → List α}

theorem map_ofSlice {buf : ι} {len : Nat} (h : mem' (f buf) = mem buf) :
    (ofSlice mem (.of buf len)).map (map f) = ofSlice mem' (.of (f buf) len) := by
  simp only [ofSlice]
  split
  · rfl
  · simp only [Option.map_some, map, h]

theorem map_send {l : Loan ι α} (h : mem' (f l.buf) = mem l.buf) :
    (l.send mem).map (map f) = (l.map f).send mem' := by
  simp only [send, map, h]
  split
  · rw [Option.map_map]; rfl
  · rfl

theorem intact_map {l : Loan ι α} (h : mem' (f l.buf) = mem l.buf) :
    (l.map f).Intact mem' ↔ l.Intact mem := by
  simp only [Intact, map, h]

end

end Loan

/-! ## The double buffer -/

namespace DoubleBuffer

structure State (α : Type) where
  mem : Bool → List α
  /-- The buffer the producer fills. -/
  fill : Bool
  /-- The latest complete capture. -/
  last : Option (Capture α)
  /-- The slice on loan to the consumer. -/
  loan : Option (Loan Bool α)

inductive Action
  | write
  | complete (len : Nat)
  | acquire
  | transmit
  | release
  deriving DecidableEq

variable {α : Type}

namespace State

/-- The slice of the latest complete capture, in the buffer the producer does
not fill. -/
def ready (s : State α) : Slice Bool :=
  if Capture.latestLen s.last = 0 then .empty else .of (!s.fill) (Capture.latestLen s.last)

/-- The buffer the producer does not fill holds the latest capture. -/
def Sound (s : State α) : Prop := ∀ c, s.last = some c → s.mem (!s.fill) = c.bytes

/-- A slice on loan is not in the buffer being filled, and shows what was
lent. -/
def Intact (s : State α) : Prop := ∀ l, s.loan = some l → s.fill ≠ l.buf ∧ l.Intact s.mem

end State

inductive Step : State α → Action → State α → Prop
  | write (s : State α) (bs : List α) :
      Step s .write { s with mem := Function.update s.mem s.fill bs }
  | complete (s : State α) (len : Nat) :
      Step s (.complete len) { s with fill := !s.fill, last := some ⟨s.mem s.fill, len⟩ }
  | acquire (s : State α) (h : s.loan = none) :
      Step s .acquire { s with loan := Loan.ofSlice s.mem s.ready }
  | transmit (s : State α) {l l' : Loan Bool α} (h : s.loan = some l) (hl : l.send s.mem = some l') :
      Step s .transmit { s with loan := some l' }
  | release (s : State α) : Step s .release { s with loan := none }

/-- Nothing captured, nothing on loan, the first buffer being filled. -/
def system (α : Type) : System (State α) Action where
  init s := s.fill = false ∧ s.last = none ∧ s.loan = none
  step := Step

theorem not_fill_ne (s : State α) : (!s.fill) ≠ s.fill := by cases s.fill <;> decide

theorem Step.sound {s s' : State α} {a : Action} (h : s.Sound) (hs : Step s a s') : s'.Sound := by
  cases hs with
  | write bs =>
    intro c hc
    simp only [Function.update_of_ne (not_fill_ne s)]
    exact h c hc
  | complete len =>
    intro c hc
    simp only [Option.some.injEq] at hc
    simp only [← hc, Bool.not_not]
  | acquire | transmit | release => exact h

theorem ready_read {s : State α} (h : s.Sound) : s.ready.read s.mem = Capture.latest s.last := by
  unfold State.ready
  cases hl : s.last with
  | none => rfl
  | some c =>
    show (if c.len = 0 then Slice.empty else .of (!s.fill) c.len).read s.mem = c.bytes.take c.len
    by_cases h0 : c.len = 0
    · rw [if_pos h0, h0]
      rfl
    · rw [if_neg h0, Slice.read_of, h c hl]

theorem run_sound {h : List (State α × Action)} {s : State α} (hr : Run (system α) h s) : s.Sound :=
  hr.invariant (fun s hi c hc => by simp [hi.2.1] at hc) fun _ _ _ => Step.sound

/-- In every run, what is ready is the latest complete capture. -/
theorem run_latest {h : List (State α × Action)} {s : State α} (hr : Run (system α) h s) :
    s.ready.read s.mem = Capture.latest s.last := ready_read (run_sound hr)

/-! ## Loans over a run -/

/-- The step does not complete a capture while a slice is on loan. -/
def Quiet (s : State α) (a : Action) : Prop := (∃ len, a = .complete len) → s.loan = none

/-- A loan taken is not in the buffer being filled. -/
theorem acquire_intact (s : State α) :
    ({ s with loan := Loan.ofSlice s.mem s.ready } : State α).Intact := by
  intro l hl
  refine ⟨?_, Loan.intact_of_ofSlice hl⟩
  simp only [State.ready] at hl
  split at hl
  · simp [Loan.ofSlice] at hl
  · rw [Loan.buf_of_ofSlice hl]
    exact (not_fill_ne s).symm

/-- A step keeps the loans intact exactly when it is quiet: a completion sends
the producer to the buffer on loan, and no other step to the buffers touches
it. -/
theorem Step.intact_iff {s s' : State α} {a : Action} (h : s.Intact) (hs : Step s a s') :
    s'.Intact ↔ Quiet s a := by
  cases hs with
  | write bs =>
    refine iff_of_true (fun l hl => ?_) (fun ⟨_, he⟩ => nomatch he)
    obtain ⟨hf, hi⟩ := h l hl
    exact ⟨hf, (Loan.intact_congr (Function.update_of_ne hf.symm _ _)).mpr hi⟩
  | complete len =>
    refine ⟨fun h' _ => ?_, fun hq l hl => ?_⟩
    · cases hl : s.loan with
      | none => rfl
      | some l =>
        -- both buffers would be the one being filled
        have hb : s.fill ≠ l.buf := (h l hl).1
        have hb' : (!s.fill) ≠ l.buf := (h' l hl).1
        exact absurd (Bool.not_eq.mpr hb) hb'
    · simp [hq ⟨len, rfl⟩] at hl
  | acquire hn => exact iff_of_true (acquire_intact s) (fun ⟨_, he⟩ => nomatch he)
  | transmit hl hl' =>
    refine iff_of_true (fun l hl₁ => ?_) (fun ⟨_, he⟩ => nomatch he)
    simp only [Option.some.injEq] at hl₁
    subst hl₁
    obtain ⟨hf, hi⟩ := h _ hl
    have hbuf := Loan.buf_of_send hl'
    exact ⟨by rw [hbuf]; exact hf, hi.send hl'⟩
  | release => exact iff_of_true (fun _ hl => nomatch hl) (fun ⟨_, he⟩ => nomatch he)

/-- A run keeps every loan intact, in all of its states, exactly when no
capture is completed while a loan is out. -/
theorem always_intact_iff {h : List (State α × Action)} {s : State α} (hr : Run (system α) h s) :
    Always State.Intact h s ↔ Took Quiet h :=
  hr.always_iff_took (fun s hi l hl => by simp [hi.2.2] at hl)
    fun _ _ _ => Step.intact_iff

end DoubleBuffer

end Framework
