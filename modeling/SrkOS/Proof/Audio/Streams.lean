import SrkOS.Framework.SharedBuffer
import SrkOS.Framework.Simulation
import SrkOS.Impl.AudioStreams
import SrkOS.Proof.Audio.Atomics
import SrkOS.Proof.Audio.Stream

/-!
# Audio streams, access by access

With the accesses to the metadata as steps, and any number of connections that stream at
the same time, the ping-pong pair is a double buffer with many consumers (`refines`). A
slice is always of the ready half, so the samples that a connection sends stay in a
quiescent half exactly as long as the halves are not swapped while it sends
(`streams_quiescent_iff`). Then what it sends are the captures that were the latest when
it obtained them, whole and one after the other, if the length it had loaded is that of
the half it got (`captures_streamed`).
-/

namespace SrkOS.Proof.AudioStreams

open Framework SrkOS.Impl SrkOS.Impl.AudioStreams SrkOS.Proof.Audio

variable {ρ : Type}

/-! ## The invariant -/

structure Inv (s : State ρ) : Prop where
  access : AudioAtomics.Inv s.toState
  exclusive : Exclusive s.calls s.loan

theorem inv_initial : Inv (initial ρ) := ⟨AudioAtomics.inv_initial ρ, fun _ => .inl rfl⟩

/-- What the call of `r` is about to return is of the ready half. -/
theorem Inv.readySlice {s : State ρ} (h : Inv s) {r : ρ} {c : AudioAtomics.Call}
    (hc : s.calls r = some c) :
    s.state.readySlice s.frames c.len = .ok (.of s.state.ready c.len) :=
  h.access.readySlice hc

theorem Inv.step [DecidableEq ρ] {s s' : State ρ} {a : Action ρ} (h : Inv s) (hs : Step s a s') :
    Inv s' := by
  cases hs with
  | @access a t hstep hl hn =>
    refine ⟨h.access.step hstep, ?_⟩
    cases hstep with
    | write | storeReadyLen | toggleActive => exact h.exclusive
    | @loadReadyLen r hr => exact h.exclusive.call (hl r rfl) _
    | @loadActive r c sl hr hok => exact absurd rfl (hn r)
  | @loadActive r c sl hr hok =>
    exact ⟨h.access.step (AudioAtomics.Step.loadActive hr hok), h.exclusive.take r _⟩
  | @transmit r l l' hl hl' =>
    have hr : s.calls r = none := (h.exclusive r).resolve_right (by simp [hl])
    exact ⟨h.access, h.exclusive.hold hr _⟩
  | release r => exact ⟨h.access, h.exclusive.drop r⟩

/-! ## Refinement -/

/-- The slice that the call of `r` is about to return. -/
def obtained (s : State ρ) (r : ρ) : Option (Slice PingPong) :=
  (s.calls r).bind fun c => (s.state.readySlice s.frames c.len).toOption

theorem Inv.obtained_eq {s : State ρ} (h : Inv s) {r : ρ} {c : AudioAtomics.Call}
    (hc : s.calls r = some c) : obtained s r = some (.of s.state.ready c.len) := by
  rw [obtained, hc, Option.bind_some, h.readySlice hc]
  rfl

/-- The double buffer of the pipeline. -/
def abs (s : State ρ) : SharedBuffer.State ρ UInt8 where
  mem b := s.frames.half (halfOf b)
  fill := s.state.activeIsPong
  last := (s.captures s.state.ready).map (Capture.clamp I2S_FRAME_SIZE)
  loan r := (s.loan r).map (Loan.map isPong)

/-- A capture is complete with the second access of its `swap`, and obtained by the second
load of `ready_buffer`. -/
def act (s : State ρ) : Action ρ → Option (SharedBuffer.Action ρ)
  | .access (.write _ _) => some .write
  | .access (.storeReadyLen _) => none
  | .access .toggleActive => s.swapping.map fun len => .complete (min len I2S_FRAME_SIZE)
  | .access (.loadReadyLen _) => none
  | .access (.loadActive r) => (obtained s r).map fun sl => .acquire r (sl.map isPong)
  | .transmit r => some (.transmit r)
  | .release r => some (.release r)

theorem abs_mem (s : State ρ) (half : PingPong) :
    (abs s).mem (isPong half) = s.frames.half half := by
  simp only [abs, halfOf_isPong]

/-- A write to a half is one to its buffer. -/
theorem mem_write (frames : I2sFrames) (half : PingPong) (i : Nat) (byte : UInt8) :
    (fun b => (frames.write half i byte).half (halfOf b)) =
      Function.update (fun b => frames.half (halfOf b)) (isPong half)
        ((frames.write half i byte).half half) := by
  funext b
  rw [Function.update_apply]
  by_cases hb : b = isPong half
  · rw [if_pos hb, hb, halfOf_isPong]
  · rw [if_neg hb]
    exact half_write_ne _ (fun he => hb (by rw [← he, isPong_halfOf])) i byte

section

variable [DecidableEq ρ] {s s' : State ρ} {a : Action ρ}

theorem Inv.abs_step (h : Inv s) (hs : Step s a s') :
    Moves (SharedBuffer.system ρ UInt8) (abs s) (act s a) (abs s') := by
  cases hs with
  | @access a t hstep hl hn =>
    cases hstep with
    | write i byte hsw =>
      have hstep := SharedBuffer.Step.write (abs s)
        ((s.frames.write s.state.active i byte).half s.state.active)
      have hmem := mem_write s.frames s.state.active i byte
      rw [isPong_active] at hmem
      simp only [abs, ← hmem] at hstep
      exact hstep
    | storeReadyLen len hsw => exact rfl
    | @toggleActive len hsw =>
      have hstep := SharedBuffer.Step.complete (abs s) (min len I2S_FRAME_SIZE)
      have hmem : (abs s).mem (abs s).fill = s.frames.half s.state.active := by
        rw [show (abs s).fill = isPong s.state.active from (isPong_active s.state).symm, abs_mem]
      rw [hmem] at hstep
      simp only [act, hsw, Option.map_some, abs, toggleActive_ready, Function.update_self]
      simp only [abs, ← Bool.xor_true] at hstep
      exact hstep
    | loadReadyLen hr => exact rfl
    | @loadActive r c sl hr hok => exact absurd rfl (hn r)
  | @loadActive r c sl hr hok =>
    have hn : (abs s).loan r = none := by
      simp only [abs, h.exclusive.held_eq_none hr, Option.map_none]
    rw [h.readySlice hr, Except.ok.injEq] at hok
    subst hok
    have hstep := SharedBuffer.Step.acquire hn ((Slice.of s.state.ready c.len).map isPong)
    rw [Slice.map, ← Loan.map_ofSlice (abs_mem s s.state.ready)] at hstep
    simp only [act, h.obtained_eq hr, Option.map_some, abs, SharedBuffer.map_update]
    exact hstep
  | @transmit r l l' hl hl' =>
    have hsend : (l.map isPong).send (abs s).mem = some (l'.map isPong) := by
      rw [← Loan.map_send (abs_mem s l.buf), hl', Option.map_some]
    have hloan : (abs s).loan r = some (l.map isPong) := by simp only [abs, hl, Option.map_some]
    simp only [act, abs, SharedBuffer.map_update]
    exact SharedBuffer.Step.transmit hloan hsend
  | release r =>
    simp only [act, abs, SharedBuffer.map_update]
    exact SharedBuffer.Step.release (abs s) r

/-- The pair is a double buffer with a consumer for each connection. -/
def refines : WeakRefines (system ρ) (SharedBuffer.system ρ UInt8) where
  inv := Inv
  abs := abs
  act := act
  init s hi := by rw [hi]; exact ⟨inv_initial, rfl, rfl, fun _ => rfl⟩
  step _ _ _ h hs := ⟨h.step hs, h.abs_step hs⟩

end

/-! ## Streams -/

/-- The slice that `r` sends is not in the active half; it still shows the capture it was
obtained from, and so does every byte sent. -/
def Quiescent (r : ρ) (s : State ρ) : Prop :=
  ∀ l, s.loan r = some l → s.state.active ≠ l.buf ∧ l.Intact s.frames.half

/-- The step does not swap the halves while `r` sends a slice. -/
def NoSwap (r : ρ) (s : State ρ) (a : Action ρ) : Prop :=
  a = .access .toggleActive → s.loan r = none

/-- `r` obtains a slice with the valid length of the swap that has toggled last. -/
def SameLength (r : ρ) (s : State ρ) (a : Action ρ) : Prop :=
  a = .access (.loadActive r) → ∀ c, s.calls r = some c →
    AudioAtomics.validLen c.stored = AudioAtomics.validLen s.toggled

/-- The valid part of the latest capture. -/
def latest (s : State ρ) : List UInt8 :=
  Capture.latest ((s.captures s.state.ready).map (Capture.clamp I2S_FRAME_SIZE))

/-- The byte that a step sends for `r`. -/
def sentBy [DecidableEq ρ] (r : ρ) (s : State ρ) : Action ρ → Option UInt8
  | .transmit r' =>
    if r' = r then (s.loan r).bind fun l => (s.frames.half l.buf)[l.sent.length]? else none
  | _ => none

/-- The latest capture, if `r` obtains a slice at a step. -/
def obtainedBy [DecidableEq ρ] (r : ρ) (s : State ρ) : Action ρ → Option (List UInt8)
  | .access (.loadActive r') => if r' = r then (s.calls r).map fun _ => latest s else none
  | _ => none

/-- The step does not end the sending of a slice of `r` before its end. -/
def Finished (r : ρ) (s : State ρ) (a : Action ρ) : Prop :=
  a = .release r → remaining (s.loan r) = []

theorem noSwap_of_ne {r : ρ} {s : State ρ} {a : Action ρ} (h : a ≠ .access .toggleActive) :
    NoSwap r s a :=
  fun ha => absurd ha h

theorem sameLength_of_ne {r : ρ} {s : State ρ} {a : Action ρ} (h : a ≠ .access (.loadActive r)) :
    SameLength r s a :=
  fun ha => absurd ha h

theorem finished_of_ne {r : ρ} {s : State ρ} {a : Action ρ} (h : a ≠ .release r) : Finished r s a :=
  fun ha => absurd ha h

/-- What the steps of a connection that streams well meet. -/
def Orderly (r : ρ) (s : State ρ) (a : Action ρ) : Prop :=
  NoSwap r s a ∧ SameLength r s a ∧ Finished r s a

theorem orderly_of_ne {r : ρ} {s : State ρ} {a : Action ρ} (hs : a ≠ .access .toggleActive)
    (hl : a ≠ .access (.loadActive r)) (hf : a ≠ .release r) : Orderly r s a :=
  ⟨noSwap_of_ne hs, sameLength_of_ne hl, finished_of_ne hf⟩

/-- With the valid length of the swap that has toggled last, the ready half shows the
latest capture. -/
theorem Inv.read_latest {s : State ρ} (h : Inv s) {r : ρ} {c : AudioAtomics.Call}
    (hc : s.calls r = some c)
    (hlen : AudioAtomics.validLen c.stored = AudioAtomics.validLen s.toggled) :
    (s.frames.half s.state.ready).take c.len = latest s := by
  obtain ⟨hstored, h0⟩ := h.access.calls r c hc
  rw [hstored, hlen, ← h.access.toggled] at h0 ⊢
  cases hcap : s.captures s.state.ready with
  | none => simp [hcap, AudioAtomics.validLen] at h0
  | some cap =>
    rw [h.access.ready cap hcap, latest, hcap]
    rfl

/-! ## A capture of one byte -/

section

variable [DecidableEq ρ] {h : List (State ρ × Action ρ)} {s : State ρ} {r : ρ}

/-- A run in which nothing is sent to `r` goes on with a capture of one byte. -/
theorem run_swapped (hr : Run (system ρ) h s) (hsw : s.swapping = none) (hloan : s.loan r = none)
    (hok : Took (Orderly r) h) (byte : UInt8) :
    ∃ h' s', Run (system ρ) h' s' ∧ s'.swapping = none ∧ s'.calls = s.calls ∧
      s'.loan = s.loan ∧ s'.state.readyLen = 1 ∧ s'.stored = some 1 ∧ s'.toggled = some 1 ∧
      latest s' = [byte] ∧ Took (Orderly r) h' ∧
      trace (obtainedBy r) h' = trace (obtainedBy r) h := by
  have h₁ := hr.next (.access (.write 0 byte hsw) (by simp) (by simp))
  have h₂ := h₁.next (.access (.storeReadyLen 1 hsw) (by simp) (by simp))
  have h₃ := h₂.next (.access (.toggleActive rfl) (by simp) (by simp))
  refine ⟨_, _, h₃, rfl, rfl, rfl, min_one_frameSize, rfl, rfl, ?_, ?_, ?_⟩
  · simp only [latest, toggleActive_ready, Function.update_self]
    exact take_one_write s.frames s.state.active byte
  · refine took_cons.mpr
      ⟨⟨fun _ => hloan, sameLength_of_ne (by simp), finished_of_ne (by simp)⟩, ?_⟩
    refine took_cons.mpr ⟨orderly_of_ne (by simp) (by simp) (by simp), ?_⟩
    exact took_cons.mpr ⟨orderly_of_ne (by simp) (by simp) (by simp), hok⟩
  · simp only [trace_cons, obtainedBy, Option.toList_none, List.append_nil]

/-- A connection whose call has the length of the capture obtains it, and sends it. -/
theorem run_obtained (hr : Run (system ρ) h s) {c : AudioAtomics.Call} (hc : s.calls r = some c)
    (hlen : AudioAtomics.validLen c.stored = AudioAtomics.validLen s.toggled) {byte : UInt8}
    (hlatest : latest s = [byte]) (hok : Took (Orderly r) h) :
    ∃ h' s' l, Run (system ρ) h' s' ∧ s'.loan r = some l ∧ l.sent = [byte] ∧ l.remaining = [] ∧
      s'.swapping = s.swapping ∧ s'.calls r = none ∧ Took (Orderly r) h' ∧
      trace (obtainedBy r) h' = trace (obtainedBy r) h ++ [[byte]] := by
  have hi : Inv s := refines.inv_run hr
  have hread : (Slice.of s.state.ready c.len).read s.frames.half = [byte] :=
    (hi.read_latest hc hlen).trans hlatest
  obtain ⟨l, l', hl, hsend, hsent, hrest⟩ := Loan.sent_one hread
  have h₁ := hr.next (.loadActive hc (hi.readySlice hc))
  rw [hl] at h₁
  have h₂ := h₁.next (.transmit (Function.update_self _ _ _) hsend)
  refine ⟨_, _, l', h₂, Function.update_self _ _ _, hsent, hrest, rfl,
    Function.update_self _ _ _, ?_, ?_⟩
  · refine took_cons.mpr ⟨orderly_of_ne (by simp) (by simp) (by simp), ?_⟩
    refine took_cons.mpr
      ⟨⟨noSwap_of_ne (by simp), fun _ c' hc' => ?_, finished_of_ne (by simp)⟩, hok⟩
    rw [← Option.some.inj (hc.symm.trans hc')]
    exact hlen
  · simp only [trace_cons, obtainedBy, if_true, hc, Option.map_some, hlatest,
      Option.toList_none, Option.toList_some, List.append_nil]

/-- A connection at rest obtains a capture of one byte, and sends it. -/
theorem run_sending (hr : Run (system ρ) h s) (hsw : s.swapping = none) (hcalls : s.calls r = none)
    (hloan : s.loan r = none) (hok : Took (Orderly r) h) (byte : UInt8) :
    ∃ h' s' l, Run (system ρ) h' s' ∧ s'.loan r = some l ∧ l.sent = [byte] ∧ l.remaining = [] ∧
      s'.swapping = none ∧ s'.calls r = none ∧ Took (Orderly r) h' ∧
      trace (obtainedBy r) h' = trace (obtainedBy r) h ++ [[byte]] := by
  obtain ⟨h₁, s₁, hr₁, hsw₁, hcalls₁, hloan₁, hlen, hstored, htoggled, hlatest, hok₁, htrace₁⟩ :=
    run_swapped hr hsw hloan hok byte
  have hcall : AudioAtomics.call s₁.state.readyLen s₁.stored = some ⟨1, some 1⟩ := by
    rw [hlen, hstored]
    rfl
  have hfree : ∀ r', AudioAtomics.Action.loadReadyLen r = .loadReadyLen r' → s₁.loan r' = none := by
    intro r' he
    rw [← AudioAtomics.Action.loadReadyLen.inj he, hloan₁, hloan]
  have hr₂ := hr₁.next (.access (.loadReadyLen (by rw [hcalls₁, hcalls])) hfree (by simp))
  obtain ⟨h', s', l, hr', hl, hsent, hrest, hsw', hcalls', hok', htrace⟩ :=
    run_obtained hr₂ ((Function.update_self _ _ _).trans hcall)
      (congrArg AudioAtomics.validLen htoggled.symm) hlatest
      (took_cons.mpr ⟨orderly_of_ne (by simp) (by simp) (by simp), hok₁⟩)
  refine ⟨h', s', l, hr', hl, hsent, hrest, by rw [hsw', hsw₁], hcalls', hok', ?_⟩
  simp only [htrace, trace_cons, obtainedBy, htrace₁, Option.toList_none, List.append_nil]

end

/-! ## Loans -/

theorem quiescent_iff_intact (s : State ρ) (r : ρ) : ((abs s).view r).Intact ↔ Quiescent r s := by
  simp only [DoubleBuffer.State.Intact, Quiescent, SharedBuffer.State.view, abs,
    Option.map_eq_some_iff, forall_exists_index, and_imp, forall_apply_eq_imp_iff₂]
  refine forall₂_congr fun l _ => and_congr ?_ (Loan.intact_map (abs_mem s l.buf))
  rw [not_iff_not, ← isPong_active]
  refine ⟨fun he => ?_, congrArg isPong⟩
  rw [← halfOf_isPong s.state.active, ← halfOf_isPong l.buf]
  exact congrArg halfOf he

section

variable [DecidableEq ρ] {s s' : State ρ} {a : Action ρ}

omit [DecidableEq ρ] in
/-- The ready half is not the buffer being filled. -/
theorem ready_ne_fill (s : State ρ) : isPong s.state.ready ≠ (abs s).fill := by
  rw [PingPongState.ready, isPong_other, isPong_active]
  exact (Bool.not_eq_self _).mp

theorem clear_iff (h : Inv s) (hs : Step s a s') (r : ρ) :
    (∀ b, act s a = some b → SharedBuffer.Clear r (abs s) b) ↔ NoSwap r s a := by
  cases hs with
  | @access a t hstep hl hn =>
    cases hstep with
    | write i byte hsw =>
      refine iff_of_true (fun b hb => ?_) (by simp [NoSwap])
      obtain rfl := Option.some.inj hb
      exact SharedBuffer.clear_of (by simp) rfl
    | storeReadyLen | loadReadyLen => exact iff_of_true (by simp [act]) (by simp [NoSwap])
    | @toggleActive len hsw =>
      simp only [act, hsw, Option.map_some, Option.some.injEq, forall_eq']
      refine ⟨fun hcl _ => ?_, fun hq => ⟨fun len _ => ?_, by simp [SharedBuffer.Action.lends]⟩⟩
      · simpa [abs] using hcl.complete _ rfl
      · simp only [abs, hq rfl, Option.map_none]
    | @loadActive r' c sl hr hok => exact absurd rfl (hn r')
  | @loadActive r' c sl hr hok =>
    refine iff_of_true (fun b hb => ⟨fun len he => ?_, fun len hl => ?_⟩) (by simp [NoSwap])
    · simp [act, h.obtained_eq hr, he] at hb
    · -- the slice is of the ready half
      simp only [act, h.obtained_eq hr, Option.map_some, Slice.map, Option.some.injEq] at hb
      subst hb
      simp only [SharedBuffer.Action.lends, Option.ite_none_right_eq_some, Option.some.injEq,
        Slice.of.injEq] at hl
      exact absurd hl.2.1 (ready_ne_fill s)
  | transmit | release =>
    refine iff_of_true (fun b hb => ?_) (by simp [NoSwap])
    obtain rfl := Option.some.inj hb
    exact SharedBuffer.clear_of (by simp) rfl

/-- In every run of any number of connections: the samples that a connection sends stay in
a quiescent half, in all of its states, exactly when the halves are not swapped while it
sends; of which swap the length it has loaded is does not matter. -/
theorem streams_quiescent_iff {h : List (State ρ × Action ρ)} (hr : Run (system ρ) h s) (r : ρ) :
    Always (Quiescent r) h s ↔ Took (NoSwap r) h :=
  refines.always_took_iff (fun s _ => quiescent_iff_intact s r)
    (fun _ _ _ hi hs => clear_iff hi hs r)
    (fun _ _ hr => SharedBuffer.always_intact_iff hr r) hr

end

/-- A byte of a capture is obtained, and sent as it was. -/
theorem sample_streamed : ∃ h s, Run (system Unit) h s ∧
    (∃ l, s.loan () = some l ∧ l.sent = [0xAA]) ∧ Always (Quiescent ()) h s := by
  have h₀ : Run (system Unit) [] (initial Unit) := .start rfl
  obtain ⟨h, s, l, hr, hloan, hsent, -, -, -, hok, -⟩ :=
    run_sending (r := ()) h₀ rfl rfl rfl (took_nil _) 0xAA
  refine ⟨h, s, hr, ⟨l, hloan, hsent⟩, ?_⟩
  exact (streams_quiescent_iff hr ()).mpr fun e he => (hok e he).1

/-! ## What is sent -/

section

variable [DecidableEq ρ] {s : State ρ} {a : Action ρ}

theorem sentBy_abs (s : State ρ) (r : ρ) (a : Action ρ) :
    (act s a).bind (SharedBuffer.sentBy r (abs s)) = sentBy r s a := by
  cases a with
  | access a =>
    cases a with
    | write | storeReadyLen | loadReadyLen => rfl
    | toggleActive =>
      simp only [act, sentBy]
      cases s.swapping <;> rfl
    | loadActive r' =>
      simp only [act, sentBy]
      cases obtained s r' <;> rfl
  | release r' => exact SharedBuffer.sentBy_release r'
  | transmit r' => exact SharedBuffer.sentBy_transmit rfl (fun l _ => abs_mem s l.buf) r'

theorem lentBy_abs (h : Inv s) {r : ρ} (hl : SameLength r s a) :
    (act s a).bind (SharedBuffer.lentBy r (abs s)) = obtainedBy r s a := by
  cases a with
  | transmit | release => rfl
  | access a =>
    cases a with
    | write | storeReadyLen | loadReadyLen => rfl
    | toggleActive =>
      simp only [act, obtainedBy]
      cases s.swapping <;> rfl
    | loadActive r' =>
      simp only [act, obtainedBy]
      by_cases he : r' = r
      · subst he
        rw [if_pos rfl]
        cases hc : s.calls r' with
        | none => simp [obtained, hc]
        | some c =>
          simp [h.obtained_eq hc, SharedBuffer.lentBy, SharedBuffer.Action.lends, Slice.map,
            abs_mem, h.read_latest hc (hl rfl c hc)]
      · rw [if_neg he]
        cases obtained s r' with
        | none => rfl
        | some sl => simp [SharedBuffer.lentBy, SharedBuffer.Action.lends, he]

omit [DecidableEq ρ] in
theorem finished_abs {r : ρ} (hf : Finished r s a) :
    ∀ b, act s a = some b → SharedBuffer.Finished r (abs s) b := by
  intro b hb hrel
  subst hrel
  show remaining ((s.loan r).map (Loan.map isPong)) = []
  rw [remaining_map]
  refine hf ?_
  cases a with
  | release r' => simpa [act] using hb
  | transmit => simp [act] at hb
  | access a => cases a <;> simp [act] at hb

/-- Captures of one byte each can be sent to `r` one after the other. -/
theorem exists_captures_streamed (r : ρ) (bytes : List UInt8) :
    ∃ h s, Run (system ρ) h s ∧ (s.swapping = none ∧ s.calls r = none ∧ s.loan r = none) ∧
      Took (Orderly r) h ∧ trace (obtainedBy r) h = bytes.map fun byte => [byte] := by
  refine Run.exists_repeated (fun h s byte hr hrest hok => ?_) rfl ⟨rfl, rfl, rfl⟩ bytes
  obtain ⟨h', s', l, hr', hl, -, hrest', hsw, hcalls, hok', htrace⟩ :=
    run_sending hr hrest.1 hrest.2.1 hrest.2.2 hok byte
  refine ⟨_, _, hr'.next (.release s' r), ⟨hsw, hcalls, Function.update_self _ _ _⟩, ?_, ?_⟩
  · refine took_cons.mpr ⟨⟨noSwap_of_ne (by simp), sameLength_of_ne (by simp), fun _ => ?_⟩, hok'⟩
    rw [hl]
    exact hrest'
  · simp only [trace_cons, obtainedBy, htrace, Option.toList_none, List.append_nil]

/-- In every run of any number of connections: if the halves are not swapped while a
connection sends, each slice it obtains has the valid length of the swap that has toggled
last, and is sent to its end, then the bytes it sent, with those that are still to be sent
of the last slice, are the captures that were the latest when it obtained them, one after
the other. -/
theorem captures_streamed {h : List (State ρ × Action ρ)} (hr : Run (system ρ) h s) {r : ρ}
    (hn : Took (NoSwap r) h) (hl : Took (SameLength r) h) (hf : Took (Finished r) h) :
    trace (sentBy r) h ++ remaining (s.loan r) = (trace (obtainedBy r) h).flatten := by
  have hi := refines.always_inv hr
  have hsent := SharedBuffer.sent_of_refines refines hr
    ((hr.took_congr (fun _ _ _ hi hs => clear_iff hi hs r) hi).mpr hn)
    (fun e he => finished_abs (hf e he)) (fun s a _ => sentBy_abs s r a)
    (fun e he => lentBy_abs (hi.2 e he) (hl e he))
  rw [← hsent]
  show _ = _ ++ remaining ((s.loan r).map (Loan.map isPong))
  rw [remaining_map]

end

/-- Two captures of one byte each, sent one after the other. -/
theorem two_captures_streamed : ∃ h s, Run (system Unit) h s ∧ s.loan () = none ∧
    trace (sentBy ()) h = [0xAA, 0xBB] := by
  obtain ⟨h, s, hr, ⟨-, -, hloan⟩, hok, hobtained⟩ := exists_captures_streamed () [0xAA, 0xBB]
  refine ⟨h, s, hr, hloan, ?_⟩
  have hsent := captures_streamed hr (r := ()) (fun e he => (hok e he).1)
    (fun e he => (hok e he).2.1) (fun e he => (hok e he).2.2)
  rw [hloan, hobtained, remaining, Option.map_none, Option.getD_none, List.append_nil] at hsent
  exact hsent

end SrkOS.Proof.AudioStreams
