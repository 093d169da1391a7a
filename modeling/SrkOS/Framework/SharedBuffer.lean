import SrkOS.Framework.Sending
import SrkOS.Framework.Simulation

/-!
# Double buffers with many consumers

A double buffer of which any number of consumers may be lent slices at the same time,
and not only of the latest capture: a consumer that takes several steps to find out
what is ready may come away with a slice that no longer is, of the buffer being filled
even. What a consumer `r` sees is a double buffer of its own (`State.view`).

* `always_intact_iff`: the loans of `r` show what was lent, in every state of a run,
  exactly when no capture is completed while `r` has one, and none is of the buffer
  being filled when it is lent;
* `run_sent`, `sent_of_refines`: then what `r` sends, if it sends its loans to their ends,
  are the slices it was lent.
-/

namespace Framework.SharedBuffer

structure State (ρ α : Type) where
  mem : Bool → List α
  /-- The buffer the producer fills. -/
  fill : Bool
  /-- The latest complete capture. -/
  last : Option (Capture α)
  /-- The slices on loan. -/
  loan : ρ → Option (Loan Bool α)

inductive Action (ρ : Type)
  | write
  | complete (len : Nat)
  | acquire (r : ρ) (sl : Slice Bool)
  | transmit (r : ρ)
  | release (r : ρ)
  deriving DecidableEq

variable {ρ α : Type}

/-- The double buffer that `r` sees. -/
def State.view (s : State ρ α) (r : ρ) : DoubleBuffer.State α := ⟨s.mem, s.fill, s.last, s.loan r⟩

variable [DecidableEq ρ]

/-- A loan taken or given back, the buffers renamed. -/
theorem map_update {ι κ : Type} (f : ι → κ) (loan : ρ → Option (Loan ι α)) (r : ρ)
    (l : Option (Loan ι α)) :
    (fun r' => (Function.update loan r l r').map (Loan.map f)) =
      Function.update (fun r' => (loan r').map (Loan.map f)) r (l.map (Loan.map f)) :=
  Function.comp_update (Option.map (Loan.map f)) loan r l

inductive Step : State ρ α → Action ρ → State ρ α → Prop
  | write (s : State ρ α) (bs : List α) :
      Step s .write { s with mem := Function.update s.mem s.fill bs }
  | complete (s : State ρ α) (len : Nat) :
      Step s (.complete len) { s with fill := !s.fill, last := some ⟨s.mem s.fill, len⟩ }
  | acquire {s : State ρ α} {r : ρ} (h : s.loan r = none) (sl : Slice Bool) :
      Step s (.acquire r sl) { s with loan := Function.update s.loan r (Loan.ofSlice s.mem sl) }
  | transmit {s : State ρ α} {r : ρ} {l l' : Loan Bool α} (h : s.loan r = some l)
      (hl : l.send s.mem = some l') :
      Step s (.transmit r) { s with loan := Function.update s.loan r (some l') }
  | release (s : State ρ α) (r : ρ) :
      Step s (.release r) { s with loan := Function.update s.loan r none }

/-- Nothing captured, nothing on loan, the first buffer being filled. -/
def system (ρ α : Type) [DecidableEq ρ] : System (State ρ α) (Action ρ) where
  init s := s.fill = false ∧ s.last = none ∧ ∀ r, s.loan r = none
  step := Step

/-! ## What a consumer sees -/

/-- The slice a step lends to `r`. -/
def Action.lends (r : ρ) : Action ρ → Option (Slice Bool)
  | .acquire r' sl => if r' = r then some sl else none
  | _ => none

/-- What `r` sees of a step, but for what it is lent. -/
def Action.seenBy (r : ρ) : Action ρ → Option DoubleBuffer.Action
  | .write => some .write
  | .complete len => some (.complete len)
  | .acquire _ _ => none
  | .transmit r' => if r' = r then some .transmit else none
  | .release r' => if r' = r then some .release else none

variable {r : ρ} {s s' : State ρ α} {a : Action ρ}

/-- A step lends `r` a slice, or is a step of the double buffer that `r` sees, or is
not seen by it. -/
theorem Step.view (hs : Step s a s') :
    (∃ sl, a.lends r = some sl ∧ s.loan r = none ∧
      s'.view r = { s.view r with loan := Loan.ofSlice s.mem sl }) ∨
    a.lends r = none ∧ Moves (DoubleBuffer.system α) (s.view r) (a.seenBy r) (s'.view r) := by
  cases hs with
  | write bs => exact .inr ⟨rfl, DoubleBuffer.Step.write (s.view r) bs⟩
  | complete len => exact .inr ⟨rfl, DoubleBuffer.Step.complete (s.view r) len⟩
  | @acquire r' hn sl =>
    by_cases hr : r' = r
    · subst hr
      exact .inl ⟨sl, if_pos rfl, hn, by simp only [State.view, Function.update_self]⟩
    · refine .inr ⟨if_neg hr, ?_⟩
      show State.view _ r = s.view r
      simp only [State.view, Function.update_of_ne (Ne.symm hr)]
  | @transmit r' l l' hl hl' =>
    refine .inr ⟨rfl, ?_⟩
    by_cases hr : r' = r
    · subst hr
      simp only [Action.seenBy, if_true, State.view, Function.update_self]
      exact DoubleBuffer.Step.transmit (s.view r') hl hl'
    · simp only [Action.seenBy, if_neg hr, State.view, Function.update_of_ne (Ne.symm hr)]
      exact rfl
  | release r' =>
    refine .inr ⟨rfl, ?_⟩
    by_cases hr : r' = r
    · subst hr
      simp only [Action.seenBy, if_true, State.view, Function.update_self]
      exact DoubleBuffer.Step.release (s.view r')
    · simp only [Action.seenBy, if_neg hr, State.view, Function.update_of_ne (Ne.symm hr)]
      exact rfl

/-- The buffer that is not filled holds the latest capture. -/
theorem run_sound {h : List (State ρ α × Action ρ)} (hr : Run (system ρ α) h s) (r : ρ) :
    (s.view r).Sound := by
  refine hr.invariant (P := fun s => (s.view r).Sound) (fun s hi c hc => ?_) fun s a s' hs hst => ?_
  · rw [show (s.view r).last = none from hi.2.1] at hc
    simp at hc
  · rcases hst.view (r := r) with ⟨sl, -, -, hv⟩ | ⟨-, hm⟩
    · rw [hv]
      exact hs
    · cases ha : a.seenBy r with
      | none =>
        rw [ha] at hm
        rw [show s'.view r = s.view r from hm]
        exact hs
      | some b =>
        rw [ha] at hm
        exact DoubleBuffer.Step.sound hs hm

/-! ## Loans over a run -/

/-- The step does not complete a capture while `r` has a loan, and does not lend it a
slice of the buffer being filled. -/
structure Clear (r : ρ) (s : State ρ α) (a : Action ρ) : Prop where
  complete : ∀ len, a = .complete len → s.loan r = none
  lends : ∀ len, a.lends r = some (.of s.fill len) → len = 0

theorem clear_of (hc : ∀ len, a ≠ .complete len) (hl : a.lends r = none) :
    Clear r s a :=
  ⟨fun len ha => absurd ha (hc len), by simp [hl]⟩

/-- A slice lent is intact exactly if it is not of the buffer being filled. -/
theorem intact_lent_iff (s : DoubleBuffer.State α) (sl : Slice Bool) :
    ({ s with loan := Loan.ofSlice s.mem sl } : DoubleBuffer.State α).Intact ↔
      ∀ len, sl = .of s.fill len → len = 0 := by
  refine ⟨fun h len hsl => ?_, fun h l hl => ⟨?_, Loan.intact_of_ofSlice hl⟩⟩
  · by_contra h0
    subst hsl
    have hof : Loan.ofSlice s.mem (.of s.fill len) =
        some ⟨s.fill, len, (s.mem s.fill).take len, []⟩ := if_neg h0
    exact (h _ hof).1 rfl
  · cases sl with
    | empty => simp [Loan.ofSlice] at hl
    | of buf len =>
      rw [Loan.buf_of_ofSlice hl]
      intro he
      have h0 := h len (by rw [he])
      simp [Loan.ofSlice, h0] at hl

/-- A step keeps the loan of `r` intact exactly when it is clear. -/
theorem Step.intact_iff (h : (s.view r).Intact) (hs : Step s a s') :
    (s'.view r).Intact ↔ Clear r s a := by
  rcases hs.view (r := r) with ⟨sl, hlends, -, hv⟩ | ⟨hlends, hm⟩
  · rw [hv]
    refine (intact_lent_iff (s.view r) sl).trans ⟨fun h0 => ⟨fun len ha => ?_, fun len hl => ?_⟩,
      fun hc len hsl => hc.lends len (by rw [hlends, hsl]; rfl)⟩
    · simp [ha, Action.lends] at hlends
    · rw [hlends, Option.some.injEq] at hl
      exact h0 len hl
  · have hiff : (s'.view r).Intact ↔ ∀ len, a = .complete len → s.loan r = none := by
      cases ha : a.seenBy r with
      | none =>
        rw [ha] at hm
        rw [show s'.view r = s.view r from hm]
        refine iff_of_true h fun len he => ?_
        simp [he, Action.seenBy] at ha
      | some b =>
        rw [ha] at hm
        refine (DoubleBuffer.Step.intact_iff h hm).trans ?_
        simp only [DoubleBuffer.Quiet, forall_exists_index]
        refine forall_congr' fun len => imp_congr_left ?_
        cases a with
        | complete len' => simp [Action.seenBy] at ha; simp [← ha]
        | write => simp [Action.seenBy] at ha; simp [← ha]
        | acquire r' sl => simp [Action.seenBy] at ha
        | transmit r' | release r' => simp [Action.seenBy] at ha; simp [← ha.2]
    exact hiff.trans ⟨fun hc => ⟨hc, by simp [hlends]⟩, Clear.complete⟩

/-- A run keeps the loans of `r` intact, in all of its states, exactly when its steps
are clear. -/
theorem always_intact_iff {h : List (State ρ α × Action ρ)} (hr : Run (system ρ α) h s) (r : ρ) :
    Always (fun s => (s.view r).Intact) h s ↔ Took (Clear r) h := by
  refine hr.always_iff_took (fun s hi l hl => ?_) fun _ _ _ => Step.intact_iff
  rw [show (s.view r).loan = none from hi.2.2 r] at hl
  simp at hl

/-! ## What is sent -/

/-- The element that a step sends for `r`. -/
def sentBy (r : ρ) (s : State ρ α) (a : Action ρ) : Option α :=
  (a.seenBy r).bind (DoubleBuffer.sentBy (s.view r))

/-- What the slice that a step lends to `r` shows then. -/
def lentBy (r : ρ) (s : State ρ α) (a : Action ρ) : Option (List α) :=
  (a.lends r).map (Slice.read s.mem)

/-- The step does not give back a slice of `r` that has not been sent. -/
def Finished (r : ρ) (s : State ρ α) (a : Action ρ) : Prop :=
  a = .release r → remaining (s.loan r) = []

/-- What is sent for `r`, the buffers renamed. -/
theorem sentBy_transmit {ι : Type} {f : ι → Bool} {mem : ι → List α} {loan : Option (Loan ι α)}
    (hl : s.loan r = loan.map (Loan.map f)) (hm : ∀ l, loan = some l → s.mem (f l.buf) = mem l.buf)
    (r' : ρ) :
    sentBy r s (.transmit r') =
      if r' = r then loan.bind fun l => (mem l.buf)[l.sent.length]? else none := by
  simp only [sentBy, Action.seenBy]
  by_cases hr : r' = r
  · rw [if_pos hr, if_pos hr, Option.bind_some]
    show (s.loan r).bind (fun l => (s.mem l.buf)[l.sent.length]?) = _
    rw [hl]
    cases hloan : loan with
    | none => rfl
    | some l =>
      rw [Option.map_some, Option.bind_some, Option.bind_some, ← hm l hloan]
      rfl
  · rw [if_neg hr, if_neg hr]
    rfl

theorem sentBy_release (r' : ρ) : sentBy r s (.release r') = none := by
  simp only [sentBy, Action.seenBy]
  split <;> rfl

/-- A step sends from what remains, and lends what remains then. -/
theorem Step.remaining (hs : Step s a s') (hsound : (s.view r).Sound) (hi : (s.view r).Intact)
    (hf : Finished r s a) :
    (sentBy r s a).toList ++ Framework.remaining (s'.loan r) =
      Framework.remaining (s.loan r) ++ (lentBy r s a).toList.flatten := by
  rcases hs.view (r := r) with ⟨sl, hlends, hn, hv⟩ | ⟨hlends, hm⟩
  · have hloan : s'.loan r = Loan.ofSlice s.mem sl := congrArg DoubleBuffer.State.loan hv
    have hseen : a.seenBy r = none := by
      cases a <;> simp [Action.lends] at hlends; rfl
    rw [sentBy, hseen, hloan, remaining_ofSlice, hn, lentBy, hlends]
    simp [Framework.remaining]
  · rw [lentBy, hlends, sentBy]
    cases ha : a.seenBy r with
    | none =>
      rw [ha] at hm
      have hloan : s'.loan r = s.loan r := congrArg DoubleBuffer.State.loan hm
      simp [hloan]
    | some b =>
      rw [ha] at hm
      have hfb : DoubleBuffer.Finished (s.view r) b := by
        intro hb
        subst hb
        cases a <;> simp [Action.seenBy] at ha
        exact hf (by rw [ha])
      have hstep := DoubleBuffer.Step.remaining hm hsound hi hfb
      have hlent : DoubleBuffer.lentBy (s.view r) b = none := by
        cases b with
        | acquire => cases a <;> simp [Action.seenBy] at ha
        | write | complete | transmit | release => rfl
      rw [hlent] at hstep
      exact hstep

/-- In every run whose steps are clear, and in which `r` sends its loans to their ends:
what was sent, with what is still to be sent, are the slices lent. -/
theorem run_sent {h : List (State ρ α × Action ρ)} (hr : Run (system ρ α) h s) {r : ρ}
    (hc : Took (Clear r) h) (hf : Took (Finished r) h) :
    trace (sentBy r) h ++ remaining (s.loan r) = (trace (lentBy r) h).flatten := by
  induction hr with
  | start hi =>
    rw [hi.2.2 r]
    rfl
  | @next h s s' a hr hs ih =>
    have hc := (took_cons.mp hc).2
    obtain ⟨hfa, hf⟩ := took_cons.mp hf
    have hi := ((always_intact_iff hr r).mpr hc).last
    calc trace (sentBy r) ((s, a) :: h) ++ remaining (s'.loan r)
      _ = trace (sentBy r) h ++ ((sentBy r s a).toList ++ remaining (s'.loan r)) := by
        rw [trace_cons, List.append_assoc]
      _ = trace (sentBy r) h ++ remaining (s.loan r) ++ (lentBy r s a).toList.flatten := by
        rw [hs.remaining (run_sound hr r) hi hfa, List.append_assoc]
      _ = (trace (lentBy r) ((s, a) :: h)).flatten := by
        rw [ih hc hf, trace_cons, List.flatten_append]

/-- `run_sent`, for the runs of a system that is such a double buffer. -/
theorem sent_of_refines {σ ι : Type} {M : System σ ι} (R : WeakRefines M (system ρ α))
    {pick : σ → ι → Option α} {pick' : σ → ι → Option (List α)} {h : List (σ × ι)} {s : σ}
    (hr : Run M h s) (hc : Took (fun s a => ∀ b, R.act s a = some b → Clear r (R.abs s) b) h)
    (hf : Took (fun s a => ∀ b, R.act s a = some b → Finished r (R.abs s) b) h)
    (hp : ∀ s a, R.inv s → (R.act s a).bind (sentBy r (R.abs s)) = pick s a)
    (hp' : ∀ e ∈ h, (R.act e.1 e.2).bind (lentBy r (R.abs e.1)) = pick' e.1 e.2) :
    trace pick h ++ remaining ((R.abs s).loan r) = (trace pick' h).flatten := by
  have hsent := run_sent (R.run hr) (R.took_iff.mpr hc) (R.took_iff.mpr hf)
  have hlent : trace (lentBy r) (R.history h) = trace pick' h :=
    (R.trace_history (fun _ _ _ => rfl) hr).trans (trace_congr hp')
  rw [R.trace_history hp hr, hlent] at hsent
  exact hsent

end Framework.SharedBuffer
