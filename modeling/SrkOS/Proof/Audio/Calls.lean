import SrkOS.Framework.Traces
import SrkOS.Proof.Audio.Sent
import SrkOS.Proof.Audio.Streams

/-!
# Calls of the ping-pong pair as single steps

In the pipeline of `Audio.system` each call of `swap` and of `ready_buffer` is a single
step, and there is one connection; in that of `AudioStreams.system` each of their accesses
is a step, and there is any number of connections. To a connection the two are the same,
as long as each slice it obtains has the valid length of the swap that has toggled last:
`swap` takes effect with its second access, and `ready_buffer` with its second load
(`captures_atomic`).
-/

namespace SrkOS.Proof.AudioStreams

open Framework SrkOS.Impl SrkOS.Impl.AudioStreams SrkOS.Proof.Audio

variable {ρ : Type}

/-! ## What is seen -/

/-- What a step of the pipeline shows. -/
def shown (s : Audio.State) : Audio.Action → Option (StreamEvent UInt8)
  | .write i byte => some (.written i byte)
  | .swap len => some (.completed len)
  | .acquire =>
    (s.state.readyBufferFrom s.frames).toOption.bind (StreamEvent.ofSlice s.frames.half)
  | .transmit => (Audio.sentBy s .transmit).map .sent
  | .release => some .released

/-- What a step shows of the producer and of `r`. -/
def shownTo [DecidableEq ρ] (r : ρ) (s : State ρ) : Action ρ → Option (StreamEvent UInt8)
  | .access (.write i byte) => some (.written i byte)
  | .access (.storeReadyLen _) => none
  | .access .toggleActive => s.swapping.map .completed
  | .access (.loadReadyLen _) => none
  | .access (.loadActive r') =>
    if r' = r then (obtained s r).bind (StreamEvent.ofSlice s.frames.half) else none
  | .transmit r' => (sentBy r s (.transmit r')).map .sent
  | .release r' => if r' = r then some .released else none

/-! ## The same states -/

/-- The pipeline as `r` sees it. -/
structure Agree (r : ρ) (s : State ρ) (t : Audio.State) : Prop where
  inv : Inv s
  pipeline : Audio.Inv t
  frames : t.frames = s.frames
  fill : t.state.activeIsPong = s.state.activeIsPong
  last : t.last = s.captures s.state.ready
  loan : t.loan = s.loan r

theorem agree_initial (r : ρ) : Agree r (initial ρ) Audio.initial :=
  ⟨inv_initial, Audio.inv_initial, rfl, rfl, rfl, rfl⟩

section

variable {r : ρ} {s s' : State ρ} {t : Audio.State}

theorem Agree.active (h : Agree r s t) : t.state.active = s.state.active := by
  rw [PingPongState.active, h.fill, PingPongState.active]

theorem Agree.ready (h : Agree r s t) : t.state.ready = s.state.ready := by
  rw [PingPongState.ready, h.active, PingPongState.ready]

/-- `ready_len` in the pipeline is the valid length of the swap that has toggled last. -/
theorem Agree.readyLen (h : Agree r s t) :
    t.state.readyLen = AudioAtomics.validLen s.toggled := by
  rw [h.pipeline, Audio.lastLen, h.last, ← h.inv.access.toggled]
  cases s.captures s.state.ready <;> rfl

/-- What `r` obtains with that length, a call of the pipeline returns. -/
theorem Agree.readyBufferFrom (h : Agree r s t) {c : AudioAtomics.Call} (hc : s.calls r = some c)
    (hlen : AudioAtomics.validLen c.stored = AudioAtomics.validLen s.toggled) :
    t.state.readyBufferFrom t.frames = .ok (.of s.state.ready c.len) := by
  obtain ⟨hstored, h0⟩ := h.inv.access.calls r c hc
  have hready : t.state.readyLen = c.len := by rw [h.readyLen, hstored, hlen]
  rw [readyBufferFrom_ok t.frames (by rw [h.readyLen]; exact AudioAtomics.validLen_le _), hready,
    if_neg h0, h.ready]

/-- A step that changes nothing that `r` sees. -/
theorem Agree.silent (h : Agree r s t) (hi : Inv s')
    (hfill : s'.state.activeIsPong = s.state.activeIsPong) (hframes : s'.frames = s.frames)
    (hcap : s'.captures = s.captures) (hloan : s'.loan r = s.loan r) : Agree r s' t := by
  have hready : s'.state.ready = s.state.ready := by
    rw [PingPongState.ready, PingPongState.active, hfill]
    rfl
  exact ⟨hi, h.pipeline, h.frames.trans hframes.symm, h.fill.trans hfill.symm,
    by rw [h.last, hcap, hready], h.loan.trans hloan.symm⟩

end

/-! ## The steps of the pipeline -/

/-- The step of the pipeline that a step stands for, as `r` sees it. -/
def seenBy [DecidableEq ρ] (r : ρ) (s : State ρ) : Action ρ → Option Audio.Action
  | .access (.write i byte) => some (.write i byte)
  | .access (.storeReadyLen _) => none
  | .access .toggleActive => s.swapping.map .swap
  | .access (.loadReadyLen _) => none
  | .access (.loadActive r') => if r' = r then some .acquire else none
  | .transmit r' => if r' = r then some .transmit else none
  | .release r' => if r' = r then some .release else none

section

variable [DecidableEq ρ] {r : ρ} {s s' : State ρ} {t : Audio.State}

theorem Agree.step {a : Action ρ} (h : Agree r s t) (hs : Step s a s') (hsl : SameLength r s a) :
    ∃ t', Moves Audio.system t (seenBy r s a) t' ∧ Agree r s' t' := by
  have hi := h.inv.step hs
  cases hs with
  | @access a u hstep hloan hn =>
    cases hstep with
    | write i byte hsw =>
      have ht : Audio.Step t _ _ := .write t i byte
      refine ⟨_, ht, hi, h.pipeline.step ht, ?_, h.fill, h.last, h.loan⟩
      rw [h.active, h.frames]
    | storeReadyLen len hsw => exact ⟨t, rfl, h.silent hi rfl rfl rfl rfl⟩
    | @toggleActive len hsw =>
      have ht : Audio.Step t _ _ := .swap t len
      have hseen : seenBy r s (.access .toggleActive) = some (.swap len) := by
        simp only [seenBy, hsw, Option.map_some]
      rw [hseen]
      refine ⟨_, ht, hi, h.pipeline.step ht, h.frames, ?_, ?_, h.loan⟩
      · show (t.state.activeIsPong ^^ true) = (s.state.activeIsPong ^^ true)
        rw [h.fill]
      · show some _ = Function.update s.captures s.state.active _ s.state.toggleActive.ready
        rw [toggleActive_ready, Function.update_self, h.frames, h.active]
    | loadReadyLen hr => exact ⟨t, rfl, h.silent hi rfl rfl rfl rfl⟩
    | @loadActive r' c sl hr hok => exact absurd rfl (hn r')
  | @loadActive r' c sl hr hok =>
    by_cases he : r' = r
    · subst he
      rw [h.inv.readySlice hr, Except.ok.injEq] at hok
      subst hok
      have ht : Audio.Step t _ _ := .acquire (h.loan.trans (h.inv.exclusive.held_eq_none hr))
        (h.readyBufferFrom hr (hsl rfl c hr))
      rw [seenBy, if_pos rfl]
      refine ⟨_, ht, hi, h.pipeline.step ht, h.frames, h.fill, h.last, ?_⟩
      rw [h.frames]
      exact (Function.update_self r' _ s.loan).symm
    · rw [seenBy, if_neg he]
      exact ⟨t, rfl, h.silent hi rfl rfl rfl (Function.update_of_ne (Ne.symm he) _ _)⟩
  | @transmit r' l l' hl hl' =>
    by_cases he : r' = r
    · subst he
      have ht : Audio.Step t _ _ := .transmit (h.loan.trans hl) (h.frames ▸ hl')
      rw [seenBy, if_pos rfl]
      exact ⟨_, ht, hi, h.pipeline.step ht, h.frames, h.fill, h.last,
        (Function.update_self r' _ s.loan).symm⟩
    · rw [seenBy, if_neg he]
      exact ⟨t, rfl, h.silent hi rfl rfl rfl (Function.update_of_ne (Ne.symm he) _ _)⟩
  | release r' =>
    by_cases he : r' = r
    · subst he
      have ht : Audio.Step t _ _ := .release t
      rw [seenBy, if_pos rfl]
      exact ⟨_, ht, hi, h.pipeline.step ht, h.frames, h.fill, h.last,
        (Function.update_self r' _ s.loan).symm⟩
    · rw [seenBy, if_neg he]
      exact ⟨t, rfl, h.silent hi rfl rfl rfl (Function.update_of_ne (Ne.symm he) _ _)⟩

/-- To `r`, a step is the one of the pipeline that it stands for. -/
theorem Agree.shown_eq {a : Action ρ} (h : Agree r s t) (hs : Step s a s') (hsl : SameLength r s a) :
    (seenBy r s a).bind (shown t) = shownTo r s a := by
  cases hs with
  | @access a u hstep hloan hn =>
    cases hstep with
    | write | storeReadyLen | loadReadyLen => rfl
    | toggleActive hsw => simp only [seenBy, shownTo, hsw, Option.map_some, Option.bind_some, shown]
    | @loadActive r' c sl hr hok => exact absurd rfl (hn r')
  | @loadActive r' c sl hr hok =>
    by_cases he : r' = r
    · subst he
      rw [seenBy, shownTo, if_pos rfl, if_pos rfl, Option.bind_some, shown,
        h.readyBufferFrom hr (hsl rfl c hr), h.inv.obtained_eq hr, h.frames]
      rfl
    · simp only [seenBy, shownTo, he, if_false, Option.bind_none]
  | @transmit r' l l' hl hl' =>
    by_cases he : r' = r
    · subst he
      simp only [seenBy, shownTo, if_true, Option.bind_some, shown, Audio.sentBy, sentBy, h.loan,
        h.frames]
    · simp only [seenBy, shownTo, sentBy, he, if_false, Option.bind_none, Option.map_none]
  | release r' =>
    by_cases he : r' = r
    · subst he
      simp only [seenBy, shownTo, if_true, Option.bind_some, shown]
    · simp only [seenBy, shownTo, he, if_false, Option.bind_none]

/-- To a connection whose slices have that length, the calls are single steps. -/
def simulation (r : ρ) : Simulation ((system ρ).restrict (SameLength r)) Audio.system where
  rel := Agree r
  act := seenBy r
  init s hi := ⟨_, rfl, by rw [show s = initial ρ from hi]; exact agree_initial r⟩
  step _ _ _ _ h hs := h.step hs.1 hs.2

end

/-! ## The accesses of a call -/

/-- No call is being made, neither of `swap` nor by `r`. -/
structure Between (r : ρ) (s : State ρ) (t : Audio.State) : Prop extends Agree r s t where
  swapping : s.swapping = none
  stored : s.stored = s.toggled
  calls : s.calls r = none

section

variable [DecidableEq ρ] {r : ρ} {s : State ρ} {t t' : Audio.State}

/-- From `s`, a path that shows `event` leads to a state that agrees with `t'`. -/
def Leads (r : ρ) (s : State ρ) (event : Option (StreamEvent UInt8)) (t' : Audio.State) : Prop :=
  ∃ p s', Path ((system ρ).restrict (SameLength r)) s p s' ∧
    trace (shownTo r) p = event.toList ∧ Between r s' t'

theorem path_inv (h : Inv s) {p : List (State ρ × Action ρ)} {s' : State ρ}
    (hp : Path ((system ρ).restrict (SameLength r)) s p s') : Inv s' :=
  hp.keep (fun _ _ _ hi hs => hi.step hs.1) h

/-- The accesses of `swap`, one after the other. -/
theorem Between.swap (h : Between r s t) (len : Nat)
    (hpipe : Audio.Inv { t with
      state := t.state.swap len, last := some ⟨t.frames.half t.state.active, len⟩ }) :
    Leads r s (some (.completed len)) { t with
      state := t.state.swap len, last := some ⟨t.frames.half t.state.active, len⟩ } := by
  have hstart : Path ((system ρ).restrict (SameLength r)) s [] s := .nil
  have h₁ := hstart.next ⟨.access (.storeReadyLen len h.swapping) (by simp) (by simp),
    sameLength_of_ne (by simp)⟩
  have h₂ := h₁.next ⟨.access (.toggleActive rfl) (by simp) (by simp), sameLength_of_ne (by simp)⟩
  have hready : (s.state.storeReadyLen len).toggleActive.ready = s.state.active :=
    toggleActive_ready _
  refine ⟨_, _, h₂, rfl,
    ⟨⟨path_inv h.inv h₂, hpipe, h.frames, ?_, ?_, h.loan⟩, rfl, rfl, h.calls⟩⟩
  · show (t.state.activeIsPong ^^ true) = (s.state.activeIsPong ^^ true)
    rw [h.fill]
  · show some _ = Function.update s.captures s.state.active _
      (s.state.storeReadyLen len).toggleActive.ready
    rw [hready, Function.update_self, h.frames, h.active]
    rfl

/-- The loads of `ready_buffer`, one after the other; if there is nothing, the first is the
only one. -/
theorem Between.readyBuffer (h : Between r s t) {sl : Slice PingPong} (hn : t.loan = none)
    (hok : t.state.readyBufferFrom t.frames = .ok sl) :
    Leads r s (StreamEvent.ofSlice t.frames.half sl)
      { t with loan := Loan.ofSlice t.frames.half sl } := by
  have hlen : s.state.readyLen = t.state.readyLen := by
    rw [h.readyLen, h.inv.access.stored, h.stored]
  have hle : s.state.readyLen ≤ I2S_FRAME_SIZE := by
    rw [h.inv.access.stored]
    exact AudioAtomics.validLen_le _
  have hloan : s.loan r = none := h.loan.symm.trans hn
  have hstart : Path ((system ρ).restrict (SameLength r)) s [] s := .nil
  have h₁ := hstart.next ⟨.access (.loadReadyLen (r := r) h.calls)
    (fun r' he => by rw [← show r = r' by simpa using he]; exact hloan) (by simp),
    sameLength_of_ne (by simp)⟩
  rw [readyBufferFrom_ok t.frames (hlen ▸ hle), ← hlen, h.ready, Except.ok.injEq] at hok
  subst hok
  by_cases h0 : s.state.readyLen = 0
  · have hcall : AudioAtomics.call s.state.readyLen s.stored = none := if_pos h0
    simp only [hcall] at h₁
    rw [if_pos h0]
    exact ⟨_, _, h₁, rfl, ⟨⟨path_inv h.inv h₁, h.pipeline, h.frames, h.fill, h.last, hloan.symm⟩,
      h.swapping, h.stored, Function.update_self r _ s.calls⟩⟩
  · have hcall : AudioAtomics.call s.state.readyLen s.stored = some ⟨s.state.readyLen, s.stored⟩ :=
      if_neg h0
    simp only [hcall] at h₁
    have hread : Function.update s.calls r (some ⟨s.state.readyLen, s.stored⟩) r =
        some ⟨s.state.readyLen, s.stored⟩ := Function.update_self _ _ _
    have h₂ := h₁.next ⟨.loadActive (r := r) hread (readySlice_ok s.state s.frames hle),
      fun _ c hc => by
        rw [← Option.some.inj (hread.symm.trans hc)]
        exact congrArg AudioAtomics.validLen h.stored⟩
    rw [if_neg h0]
    refine ⟨_, _, h₂, ?_, ⟨⟨path_inv h.inv h₂, h.pipeline, h.frames, h.fill, h.last, ?_⟩,
      h.swapping, h.stored, by simp⟩⟩
    · have hobt := (path_inv h.inv h₁).obtained_eq hread
      rw [trace_cons, trace_cons, shownTo, shownTo, if_pos rfl, hobt, h.frames]
      rfl
    · rw [h.frames]
      exact (Function.update_self r _ s.loan).symm

/-- The accesses of a call of the pipeline, one after the other. -/
theorem Between.path {b : Audio.Action} (h : Between r s t) (ht : Audio.Step t b t') :
    Leads r s (shown t b) t' := by
  have hpipe := h.pipeline.step ht
  have hstart : Path ((system ρ).restrict (SameLength r)) s [] s := .nil
  cases ht with
  | write i byte =>
    have h₁ := hstart.next ⟨.access (.write i byte h.swapping) (by simp) (by simp),
      sameLength_of_ne (by simp)⟩
    refine ⟨_, _, h₁, rfl, ⟨⟨path_inv h.inv h₁, hpipe, ?_, h.fill, h.last, h.loan⟩, h.swapping,
      h.stored, h.calls⟩⟩
    rw [h.active, h.frames]
  | swap len => exact h.swap len hpipe
  | acquire hn hok =>
    rw [shown, hok]
    exact h.readyBuffer hn hok
  | @transmit l l' hl hl' =>
    have h₁ := hstart.next ⟨.transmit (h.loan.symm.trans hl) (h.frames ▸ hl'),
      sameLength_of_ne (by simp)⟩
    refine ⟨_, _, h₁, ?_, ⟨⟨path_inv h.inv h₁, hpipe, h.frames, h.fill, h.last,
      (Function.update_self r _ s.loan).symm⟩, h.swapping, h.stored, h.calls⟩⟩
    simp only [trace_cons, trace_nil, List.nil_append, shownTo, shown, sentBy, Audio.sentBy, if_true,
      h.loan, h.frames]
  | release =>
    have h₁ := hstart.next ⟨.release s r, sameLength_of_ne (by simp)⟩
    refine ⟨_, _, h₁, ?_, ⟨⟨path_inv h.inv h₁, hpipe, h.frames, h.fill, h.last,
      (Function.update_self r _ s.loan).symm⟩, h.swapping, h.stored, h.calls⟩⟩
    simp only [trace_cons, trace_nil, List.nil_append, shownTo, shown, if_true]

/-- The accesses of the calls carry out the pipeline. -/
def expansion (r : ρ) :
    Expansion Audio.system ((system ρ).restrict (SameLength r)) shown (shownTo r) where
  rel t s := Between r s t
  init t hi := ⟨_, rfl, by
    rw [show t = Audio.initial from hi]
    exact ⟨agree_initial r, rfl, rfl, rfl⟩⟩
  step _ _ _ _ h ht := h.path ht

end

/-- A connection each of whose slices has the valid length of the swap that has toggled
last is shown, in the runs of any number of connections with each access a step, what it is
shown in those of the pipeline, with each call a step and no other connection: the same
events in the same order, with the same captures and the same bytes. -/
theorem captures_atomic [DecidableEq ρ] (r : ρ) (events : List (StreamEvent UInt8)) :
    (∃ h s, Run (system ρ) h s ∧ Took (SameLength r) h ∧ trace (shownTo r) h = events) ↔
      ∃ h t, Run Audio.system h t ∧ trace shown h = events := by
  rw [← mem_traces_restrict]
  constructor
  · intro he
    exact (simulation r).traces_subset (fun _ _ _ _ h hs => h.shown_eq hs.1 hs.2) he
  · intro he
    exact (expansion r).traces_subset he

end SrkOS.Proof.AudioStreams
