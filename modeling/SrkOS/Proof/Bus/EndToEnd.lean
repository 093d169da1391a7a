import SrkOS.Proof.Bus.Liveness
import SrkOS.Proof.Http.Payload

/-!
# From a payload to a state

The payload of a command comes in, over HTTP, in a request that one read hands over
whole, or over ESP-NOW; the command that the parsers make of it goes through the bus,
and a loop handles it. If no other command for the loop is sent meanwhile or later, the
loop gets into the state that the payload asks for, and stays there, in every fair
execution, exactly on the boards where it is the only loop (`takes_effect_iff`): any
other loop may take the command.
-/

namespace SrkOS.Proof.Ingress

open Framework SrkOS.Impl SrkOS.Impl.Ingress SrkOS.Proof.Bus SrkOS.Proof.Http

/-- The payload of a command comes in for a producer: in a request that posts it and that
one read hands over whole, or in a frame. -/
inductive Carries (cmd : Command) : Producer → Action → Prop
  | request (p : CommandPost) (h : p.payload = Payload.ofCommand cmd)
      (hread : p.bytes.length ≤ RX_BUFFER_LEN) : Carries cmd .wifiTask (.http p.bytes)
  | frame : Carries cmd .espnowTask (.espnow (Str.bytes (Payload.ofCommand cmd)))

/-- The loop is in the state that the command leads to. -/
def Shows (t : TaskLoop) (cmd : Command) (ts : TaskStates) : Prop := UpToDate ts [cmd] t

/-- No producer among those in `R` is suspended with a command that `t` handles. -/
def Unwanted (t : TaskLoop) (R : Producer → Prop) (s : State) : Prop :=
  ∀ p cmd, R p → s.sys.pending p = some cmd → handles t cmd = false

section

variable {fromSlice : List UInt8 → Option ApiCommand} {hw : DetectedHardware}

/-- From moment `n` on, nothing that `t` handles comes in. -/
def NoneComes (E : Execution (system fromSlice hw)) (t : TaskLoop) (n : Nat) : Prop :=
  ∀ m a p cmd, n ≤ m → E.act m = some a → incoming fromSlice a = some (p, cmd) →
    handles t cmd = false

/-- Whenever a payload of the command comes in, and nobody is suspended with one that
`t` handles, and none comes in later, `t` gets into the state it leads to for good. -/
def TakesEffect (E : Execution (system fromSlice hw)) (t : TaskLoop) (cmd : Command) : Prop :=
  ∀ n p a, E.act n = some a → Carries cmd p a → Unwanted t (fun _ => True) (E.state n) →
    NoneComes E t (n + 1) → ∃ m, ∀ k, m ≤ k → Shows t cmd (E.state k).sys.tasks

end

/-! ## Commands -/

theorem inRange_of_handles {t : TaskLoop} {cmd : Command} (h : handles t cmd = true) :
    InRange cmd := by
  cases cmd with
  | moveServo => cases t <;> simp [handles] at h
  | setFaceExpression | streamAudio | streamVideo => trivial

theorem incoming_carries {fromSlice : List UInt8 → Option ApiCommand} (hf : SerdeJson fromSlice)
    {cmd : Command} (h : InRange cmd) {p : Producer} {a : Action} (ha : Carries cmd p a) :
    incoming fromSlice a = some (p, cmd) := by
  have hparse : parseEspnowPayload fromSlice (Str.bytes (Payload.ofCommand cmd)) = some cmd :=
    parseApiBody_ofCommand hf h
  cases ha with
  | request post hp hread =>
    have hreq : handleRequest fromSlice post.bytes = _ := handleRequest_commandPost post
    rw [hp, hparse] at hreq
    simp only [incoming, hreq]
  | frame => simp only [incoming, hparse, Option.map_some]

theorem isSome_face (cmd : Command) :
    ((faceOf cmd).map OledState.face).isSome = handles .oledTaskLoop cmd := by
  cases cmd <;> rfl

theorem isSome_video (cmd : Command) :
    ((videoOf cmd).map cameraStateOf).isSome = handles .cameraTaskLoop cmd := by
  cases cmd <;> rfl

theorem isSome_audio (cmd : Command) :
    ((audioOf cmd).map audioStateOf).isSome = handles .audioTaskLoop cmd := by
  cases cmd <;> rfl

/-- The last command that a loop handles decides. -/
theorem shows_of_last {ts : TaskStates} {t : TaskLoop} {cmd : Command} {before after : List Command}
    (hc : handles t cmd = true) (hn : ∀ c ∈ after, handles t c = false)
    (h : UpToDate ts (before ++ cmd :: after) t) : Shows t cmd ts := by
  cases t with
  | oledTaskLoop =>
    refine h.trans (handleCommand_overwrites.foldl_last ?_ (fun c hm => ?_) before .blank .blank)
    · rw [isSome_face, hc]
    · rw [isSome_face, hn c hm]
  | cameraTaskLoop =>
    refine h.trans (handleCameraCommand_overwrites.foldl_last ?_ (fun c hm => ?_) before .idle .idle)
    · rw [isSome_video, hc]
    · rw [isSome_video, hn c hm]
  | audioTaskLoop =>
    refine h.trans (handleAudioCommand_overwrites.foldl_last ?_ (fun c hm => ?_) before .idle .idle)
    · rw [isSome_audio, hc]
    · rw [isSome_audio, hn c hm]

/-! ## What comes in later -/

section

variable {fromSlice : List UInt8 → Option ApiCommand} {hw : DetectedHardware} {s s' : State}
  {a : Action} {t : TaskLoop} {R : Producer → Prop}

/-- What a producer is suspended with has just come in, or it was before. -/
theorem pending_origin (hs : Step fromSlice hw s a s') {p : Producer} {cmd : Command}
    (hp : s'.sys.pending p = some cmd) :
    s.sys.pending p = some cmd ∨ incoming fromSlice a = some (p, cmd) := by
  rcases step_effect hs with ⟨q, cmd', hin, -, -, -, ⟨-, -, -, hp'⟩ | ⟨-, -, -, hp'⟩⟩ |
    ⟨q, cmd', -, -, -, -, -, -, hp'⟩ | ⟨u, cmd', -, -, -, -, -, hp'⟩ | ⟨-, -, rfl⟩
  · exact .inl (by rw [← hp', hp])
  · by_cases hpq : p = q
    · subst hpq
      rw [hp', Function.update_self] at hp
      exact .inr (by rw [hin, Option.some.inj hp])
    · rw [hp', Function.update_of_ne hpq] at hp
      exact .inl hp
  · by_cases hpq : p = q
    · simp [hp', hpq] at hp
    · rw [hp', Function.update_of_ne hpq] at hp
      exact .inl hp
  · exact .inl (by rw [← hp', hp])
  · exact .inl hp

theorem Unwanted.step (h : Unwanted t R s)
    (hin : ∀ p cmd, incoming fromSlice a = some (p, cmd) → handles t cmd = false)
    (hs : Step fromSlice hw s a s') : Unwanted t R s' := by
  intro p cmd hR hp
  rcases pending_origin hs hp with hp | hp
  · exact h p cmd hR hp
  · exact hin p cmd hp

/-- What is put on the bus came in, or was waiting. -/
theorem Unwanted.enqueued (h : Unwanted t (fun _ => True) s)
    (hin : ∀ p cmd, incoming fromSlice a = some (p, cmd) → handles t cmd = false)
    {e : Producer × Command} (he : enqueued fromSlice s a = some e) : handles t e.2 = false := by
  by_cases ha : ∃ p, a = .resume p
  · obtain ⟨p, rfl⟩ := ha
    obtain ⟨cmd, hp, rfl⟩ := Option.map_eq_some_iff.mp he
    exact h p cmd trivial hp
  · rw [enqueued_of_ne fun p hp => ha ⟨p, hp⟩] at he
    by_cases hf : s.sys.bus.Full
    · simp [hf] at he
    · rw [if_neg hf] at he
      exact hin e.1 e.2 he

variable {E : Execution (system fromSlice hw)} {n m : Nat}

theorem NoneComes.unwanted (h : NoneComes E t n) (hu : Unwanted t R (E.state n)) (hm : n ≤ m) :
    Unwanted t R (E.state m) := by
  induction hm with
  | refl => exact hu
  | @step m hm ih =>
    cases ha : E.act m with
    | none =>
      rw [E.state_of_none ha]
      exact ih
    | some a => exact ih.step (fun p cmd => h m a p cmd hm ha) (E.step_of_some ha)

/-- Nothing that `t` handles is put on the bus any more. -/
theorem NoneComes.log (h : NoneComes E t n) (hu : Unwanted t (fun _ => True) (E.state n))
    (hm : n ≤ m) : ∃ rest, log fromSlice (E.history m) = log fromSlice (E.history n) ++ rest ∧
      ∀ e ∈ rest, handles t e.2 = false := by
  induction hm with
  | refl => exact ⟨[], (List.append_nil _).symm, nofun⟩
  | @step m hm ih =>
    obtain ⟨rest, hlog, hrest⟩ := ih
    cases ha : E.act m with
    | none =>
      rw [E.history_succ_of_none ha]
      exact ⟨rest, hlog, hrest⟩
    | some a =>
      refine ⟨rest ++ (Ingress.enqueued fromSlice (E.state m) a).toList, ?_, fun e he => ?_⟩
      · rw [E.history_succ_of_some ha, Ingress.log, trace_cons, ← List.append_assoc, ← hlog]
        rfl
      · rcases List.mem_append.mp he with he | he
        · exact hrest e he
        · exact (h.unwanted hu hm).enqueued (fun p cmd => h m a p cmd hm ha)
            (Option.mem_toList.mp he)

/-! ## The last command -/

/-- What comes in last is put on the bus last. -/
theorem Fair.exists_logged (hf : Fair E) (ht : t ∈ spawned hw) {p : Producer} {cmd : Command}
    (ha : E.act n = some a) (hin : incoming fromSlice a = some (p, cmd))
    (hu : Unwanted t (fun _ => True) (E.state n)) (hl : NoneComes E t (n + 1)) :
    ∃ m, n < m ∧ (∃ before, Ingress.log fromSlice (E.history m) = before ++ [(p, cmd)]) ∧
      Unwanted t (fun _ => True) (E.state m) := by
  rcases incoming_effect hin (E.step_of_some ha) with ⟨-, he, -, hp⟩ | ⟨hfull, -, hp⟩
  · refine ⟨n + 1, Nat.lt_succ_self n, ⟨Ingress.log fromSlice (E.history n), ?_⟩, ?_⟩
    · rw [E.history_succ_of_some ha, Ingress.log, trace_cons, he]
      rfl
    · intro q c hq hpend
      rw [hp] at hpend
      exact hu q c hq hpend
  · have hpend : (E.state (n + 1)).sys.pending p = some cmd := by rw [hp, Function.update_self]
    have hothers : Unwanted t (· ≠ p) (E.state (n + 1)) := by
      intro q c hq hc
      rw [hp, Function.update_of_ne hq] at hc
      exact hu q c trivial hc
    obtain ⟨m, hm, hact, hpm⟩ := hf.exists_resumed ht hpend
    refine ⟨m + 1, by omega, ⟨Ingress.log fromSlice (E.history m), ?_⟩, fun q c _ hc => ?_⟩
    · rw [E.history_succ_of_some hact, Ingress.log, trace_cons]
      simp [Ingress.enqueued, hpm, Ingress.log]
    · obtain ⟨-, -, -, -, -, -, hp'⟩ := resume_effect (E.step_of_some hact)
      rw [hp'] at hc
      by_cases hq : q = p
      · simp [hq] at hc
      · rw [Function.update_of_ne hq] at hc
        exact hl.unwanted hothers hm q c hq hc

/-- With one loop, the last command put on the bus is the one it shows in the end. -/
theorem Fair.exists_shown (hf : Fair E) (hone : spawned hw = [t]) {p : Producer} {cmd : Command}
    {before : List (Producer × Command)} (hc : handles t cmd = true)
    (hlog : Ingress.log fromSlice (E.history n) = before ++ [(p, cmd)])
    (hu : Unwanted t (fun _ => True) (E.state n)) (hl : NoneComes E t n) :
    ∃ m, ∀ k, m ≤ k → Shows t cmd (E.state k).sys.tasks := by
  obtain ⟨m, hm, hdel⟩ := hf.exists_log_delivered (t := t) (by rw [hone]; simp) n
  refine ⟨m, fun k hk => ?_⟩
  obtain ⟨rest, hrest, hnone⟩ := hl.log hu (Nat.le_trans hm hk)
  have hlen : before.length + 1 ≤ (E.state k).delivered.length := by
    have hle := hdel.length_le
    rw [hlog, List.length_append, List.length_singleton, List.length_take] at hle
    have hmono := delivered_le (E := E) hk
    omega
  obtain ⟨d, hd⟩ := Nat.exists_eq_add_of_le hlen
  have htake : (Ingress.log fromSlice (E.history k)).take (E.state k).delivered.length =
      before ++ (p, cmd) :: rest.take d := by
    have hbefore : before.length + 1 = (before ++ [(p, cmd)]).length := by simp
    rw [hrest, hlog, hd, hbefore, List.take_length_add_append, List.append_assoc,
      List.singleton_append]
  have hup : UpToDate (E.state k).sys.tasks ((E.state k).delivered.map Prod.snd) t := by
    refine (upToDate_entriesOf fun e he hne => absurd ?_ hne).mpr (run_upToDate (E.run k) t)
    have hmem := run_receivers (E.run k) e he
    rw [hone] at hmem
    exact List.mem_singleton.mp hmem
  rw [run_delivered (E.run k), htake, List.map_append, List.map_cons] at hup
  refine shows_of_last hc (fun c hm => ?_) hup
  obtain ⟨e, he, rfl⟩ := List.mem_map.mp hm
  exact hnone e (List.mem_of_mem_take he)

/-! ## Another loop -/

/-- A command that leads to another state. -/
def opposite : Command → Command
  | .setFaceExpression expr => .setFaceExpression (if expr = .happy then .sad else .happy)
  | .moveServo id angle => .moveServo id angle
  | .streamAudio on => .streamAudio !on
  | .streamVideo on => .streamVideo !on

theorem handles_opposite (t : TaskLoop) (cmd : Command) :
    handles t (opposite cmd) = handles t cmd := by
  cases t <;> cases cmd <;> rfl

theorem not_shows_opposite {ts : TaskStates} {cmd : Command} (hc : handles t cmd = true)
    (h : Shows t (opposite cmd) ts) : ¬ Shows t cmd ts := by
  intro h'
  cases cmd with
  | setFaceExpression expr =>
    cases t <;> simp [handles] at hc
    have he := h.symm.trans h'
    cases expr <;> simp [handleCommand, opposite] at he
  | moveServo id angle => cases t <;> simp [handles] at hc
  | streamAudio on =>
    cases t <;> simp [handles] at hc
    have he := h.symm.trans h'
    cases on <;> simp [handleAudioCommand, opposite] at he
  | streamVideo on =>
    cases t <;> simp [handles] at hc
    have he := h.symm.trans h'
    cases on <;> simp [handleCameraCommand, opposite] at he

/-- A loop may take a command from the loop that handles it. -/
theorem exists_taken_by {u : TaskLoop} {cmd : Command} (hf : SerdeJson fromSlice)
    (ht : t ∈ spawned hw) (hu : u ∈ spawned hw) (hne : t ≠ u) (hc : handles t cmd = true) :
    ∃ h s s' s'', Run (system fromSlice hw) h s ∧ (∀ p, s.sys.pending p = none) ∧
      Step fromSlice hw s (.espnow (Str.bytes (Payload.ofCommand cmd))) s' ∧
      Step fromSlice hw s' (.receive u) s'' ∧ s''.sys.bus.queue = [] ∧
      (∀ p, s''.sys.pending p = none) ∧ Shows t (opposite cmd) s''.sys.tasks := by
  have hparse : parseEspnowPayload fromSlice (Str.bytes (Payload.ofCommand cmd)) = some cmd :=
    parseApiBody_ofCommand hf (inRange_of_handles hc)
  have hparse' : parseEspnowPayload fromSlice (Str.bytes (Payload.ofCommand (opposite cmd))) =
      some (opposite cmd) :=
    parseApiBody_ofCommand hf (inRange_of_handles ((handles_opposite t cmd).trans hc))
  have h₁ : Run (system fromSlice hw) _ _ :=
    .next (.start rfl) (.espnowAccepted hparse' (.send rfl rfl))
  have h₂ := h₁.next (.receive rfl (.receive ht rfl))
  refine ⟨_, _, _, _, h₂, fun _ => rfl, .espnowAccepted hparse (.send rfl rfl),
    .receive rfl (.receive hu rfl), rfl, fun _ => rfl, ?_⟩
  exact (upToDate_handle_ne hne).mpr ((upToDate_initial t).receive (opposite cmd))

/-- Something that comes in and a loop that receives, and nothing else. -/
theorem exists_received {h : List (State × Action)} {s'' : State} {u : TaskLoop}
    (hr : Run (system fromSlice hw) h s) (hs : Step fromSlice hw s a s')
    (hs' : Step fromSlice hw s' (.receive u) s'') (hq : s''.sys.bus.queue = [])
    (hp : ∀ p, s''.sys.pending p = none) (t : TaskLoop) :
    ∃ (E : Execution (system fromSlice hw)) (k : Nat), Fair E ∧
      E.act k = some a ∧ E.state k = s ∧ NoneComes E t (k + 1) ∧
      ∀ n, k + 2 ≤ n → E.state n = s'' := by
  obtain ⟨E, k, hnow, hact, hnext, hafter⟩ := Execution.exists_two_steps hr hs hs'
  have hstay : ∀ n, k + 2 ≤ n → E.state n = s'' := fun n hn => (hafter n hn).1
  refine ⟨E, k, fair_of_staying hstay (.inl hq) hp, hact, hnow, ?_, hstay⟩
  intro n b p c hn hb hin
  obtain rfl | hn : n = k + 1 ∨ k + 2 ≤ n := by omega
  · obtain rfl : .receive u = b := Option.some.inj (hnext.symm.trans hb)
    simp [incoming] at hin
  · rw [(hafter n hn).2] at hb
    cases hb

/-- A payload comes in after boot, by either way, and a loop receives the command. -/
theorem exists_arrived {text : String} {cmd : Command}
    (hc : parseEspnowPayload fromSlice (Str.bytes text) = some cmd) (ht : t ∈ spawned hw)
    (p : Producer) : ∃ (E : Execution (system fromSlice hw)) (k : Nat), Fair E ∧
      E.act k = some (arrival p text) ∧ E.state k = initial ∧ NoneComes E t (k + 1) := by
  obtain ⟨s', hs⟩ := exists_arrival (s := initial) hw hc (p := p) rfl
  rcases arrival_effect hc hs with ⟨-, hq, hp⟩ | ⟨hf, -, -⟩
  · have hq : s'.sys.bus.queue = [cmd] := hq
    have hne : s'.sys.bus.queue ≠ [] := by simp [hq]
    obtain ⟨cmd', bus', hr⟩ := Channel.exists_tryReceive hne
    have hr' := Channel.tryReceive_eq_some.mp hr
    have hs' : Step fromSlice hw s' (.receive t) _ :=
      .receive (by rw [hr', List.head?_cons]) (.receive ht hr)
    obtain ⟨_, -, hq', -, -, hp'⟩ := receive_effect hs'
    rw [hq, List.cons.injEq] at hq'
    obtain ⟨E, k, hfair, hact, hnow, hnone, -⟩ :=
      exists_received (.start rfl) hs hs' hq'.2.symm (fun q => by rw [hp', hp]; rfl) t
    exact ⟨E, k, hfair, hact, hnow, hnone⟩
  · exact absurd hf (by decide)

theorem exists_lost {u : TaskLoop} {cmd : Command} (hf : SerdeJson fromSlice)
    (ht : t ∈ spawned hw) (hu : u ∈ spawned hw) (hne : t ≠ u) (hc : handles t cmd = true) :
    ∃ E : Execution (system fromSlice hw), Fair E ∧ ¬ TakesEffect E t cmd := by
  obtain ⟨h, s, s', s'', hr, hp, hs, hs', hq'', hp'', hshows⟩ := exists_taken_by hf ht hu hne hc
  obtain ⟨E, k, hfair, hact, hnow, hnone, hstay⟩ := exists_received hr hs hs' hq'' hp'' t
  refine ⟨E, hfair, fun htakes => ?_⟩
  obtain ⟨m, hm⟩ := htakes k .espnowTask _ hact .frame (fun p c _ hc => by simp [hnow, hp] at hc)
    hnone
  have hshown := hm (max m (k + 2)) (by omega)
  rw [hstay _ (by omega)] at hshown
  exact not_shows_opposite hc hshows hshown

end

theorem spawned_eq_singleton {hw : DetectedHardware} {t : TaskLoop} (ht : t ∈ spawned hw)
    (h : ∀ u ∈ spawned hw, u = t) : spawned hw = [t] := by
  obtain ⟨oled, camera, audio⟩ := hw
  cases oled <;> cases camera <;> cases audio <;> cases t <;> simp_all [spawned]

/-- For every decoder that reads payloads as `serde_json_core` does, every board, every
loop spawned on it and every command that it handles: that in all fair executions the
payload of the command takes effect, in a request that one read hands over whole or in a
frame, whenever no other command for the loop is waiting or comes in later, holds exactly
if no other loop is spawned. -/
theorem takes_effect_iff {fromSlice : List UInt8 → Option ApiCommand} (hf : SerdeJson fromSlice)
    {hw : DetectedHardware} {t : TaskLoop} (ht : t ∈ spawned hw) {cmd : Command}
    (hc : handles t cmd = true) :
    (∀ E : Execution (system fromSlice hw), Fair E → TakesEffect E t cmd) ↔ spawned hw = [t] := by
  constructor
  · intro hall
    refine spawned_eq_singleton ht fun u hu => ?_
    by_contra hne
    obtain ⟨E, hfair, hlost⟩ := exists_lost hf ht hu (Ne.symm hne) hc
    exact hlost (hall E hfair)
  · intro hone E hfair n p a ha hcar hu hl
    obtain ⟨m, hm, ⟨before, hlog⟩, hum⟩ :=
      hfair.exists_logged ht ha (incoming_carries hf (inRange_of_handles hc) hcar) hu hl
    exact hfair.exists_shown hone hc hlog hum fun k b q c hk => hl k b q c (by omega)

/-- With the camera alone, a request that switches video on does so, and so does a frame. -/
theorem video_on :
    (∃ (E : Execution (system compactDecoder ⟨false, true, false⟩)) (n : Nat), Fair E ∧
      E.act n = some (.http (CommandPost.plain (Payload.ofCommand (.streamVideo true))).bytes) ∧
      ∃ m, ∀ k, m ≤ k → (E.state k).sys.tasks.camera = .streaming) ∧
    ∃ (E : Execution (system compactDecoder ⟨false, true, false⟩)) (n : Nat), Fair E ∧
      E.act n = some (.espnow (Str.bytes (Payload.ofCommand (.streamVideo true)))) ∧
      ∃ m, ∀ k, m ≤ k → (E.state k).sys.tasks.camera = .streaming := by
  have hrange : InRange (.streamVideo true) := trivial
  have hc := parseApiBody_ofCommand compactDecoder_serdeJson hrange
  have hcamera : TaskLoop.cameraTaskLoop ∈ spawned ⟨false, true, false⟩ := by decide
  have hvideo : handles .cameraTaskLoop (.streamVideo true) = true := rfl
  have hread : (CommandPost.plain (Payload.ofCommand (.streamVideo true))).bytes.length ≤
      RX_BUFFER_LEN := by decide
  have hon : ∀ p,
      Carries (.streamVideo true) p (arrival p (Payload.ofCommand (.streamVideo true))) →
      ∃ (E : Execution (system compactDecoder ⟨false, true, false⟩)) (n : Nat), Fair E ∧
        E.act n = some (arrival p (Payload.ofCommand (.streamVideo true))) ∧
        ∃ m, ∀ k, m ≤ k → (E.state k).sys.tasks.camera = .streaming := by
    intro p hcar
    obtain ⟨E, n, hfair, hact, hnow, hnone⟩ := exists_arrived hc hcamera p
    have htakes := (takes_effect_iff compactDecoder_serdeJson hcamera hvideo).mpr rfl E hfair
    refine ⟨E, n, hfair, hact, htakes n p _ hact hcar (fun q c _ hq => ?_) hnone⟩
    rw [hnow] at hq
    cases hq
  exact ⟨hon .wifiTask (.request _ rfl hread), hon .espnowTask .frame⟩

end SrkOS.Proof.Ingress
