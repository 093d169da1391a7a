import SrkOS.Proof.Bus.Delivery
import SrkOS.Proof.Bus.Drain

/-!
# What is bound to be delivered

In an execution that is fair (`Fair`), every command that comes in is delivered in
the end, if a task loop was spawned (`Fair.delivers`): some loop receives as long
as the bus is not empty, so that the bus is not full again and again, and a
suspended producer goes on at one of these moments. On a board where no probe was
acknowledged, no command ever is (`delivers_iff`).
-/

namespace SrkOS.Proof.Ingress

open Framework SrkOS.Impl SrkOS.Impl.Ingress SrkOS.Proof.Bus SrkOS.Proof.Http

/-- A task loop receives. -/
def IsReceive (a : Action) : Prop := ∃ t, a = .receive t

/-- While the bus is not empty, a loop receives in the end; and a producer that can
go on again and again does. -/
structure Fair {fromSlice : List UInt8 → Option ApiCommand} {hw : DetectedHardware}
    (E : Execution (system fromSlice hw)) : Prop where
  receive : E.WeaklyFair IsReceive
  resume : ∀ p, E.StronglyFair (· = .resume p)

/-- What has come in by any moment has been delivered by some later one, each
producer's commands in the order in which they came in. -/
def Delivers {fromSlice : List UInt8 → Option ApiCommand} {hw : DetectedHardware}
    (E : Execution (system fromSlice hw)) : Prop :=
  ∀ n, ∃ m, n ≤ m ∧ ∀ p, entriesOf p (received fromSlice (E.history n)) <+:
    entriesOf p ((log fromSlice (E.history m)).take (E.state m).delivered.length)

section

variable {fromSlice : List UInt8 → Option ApiCommand} {hw : DetectedHardware} {s s' : State}
  {a : Action} {t : TaskLoop}

/-! ## Steps -/

theorem enabled_receive (ht : t ∈ spawned hw) (hq : s.sys.bus.queue ≠ []) :
    Enabled (system fromSlice hw) IsReceive s := by
  obtain ⟨cmd, bus', hr⟩ := Channel.exists_tryReceive hq
  have hhead : s.sys.bus.queue.head? = some cmd := by
    rw [Channel.tryReceive_eq_some.mp hr, List.head?_cons]
  exact ⟨_, _, ⟨t, rfl⟩, .receive hhead (.receive ht hr)⟩

theorem enabled_resume {p : Producer} {cmd : Command} (hp : s.sys.pending p = some cmd)
    (hf : ¬ s.sys.bus.Full) : Enabled (system fromSlice hw) (· = .resume p) s := by
  obtain ⟨bus', hs⟩ := Channel.exists_trySend hf cmd
  exact ⟨_, _, rfl, .resume (.resume hp hs)⟩

/-- Only receiving empties the bus. -/
theorem queue_ne_nil_step (hq : s.sys.bus.queue ≠ []) (ha : ¬ IsReceive a)
    (hs : Step fromSlice hw s a s') : s'.sys.bus.queue ≠ [] := by
  rcases step_effect hs with ⟨q, cmd, -, -, -, -, ⟨-, -, hq', -⟩ | ⟨-, -, hq', -⟩⟩ |
    ⟨q, cmd, -, -, -, -, -, hq', -⟩ | ⟨t, cmd, rfl, -⟩ | ⟨-, -, rfl⟩
  · simp [hq']
  · rw [hq']
    exact hq
  · simp [hq']
  · exact absurd ⟨t, rfl⟩ ha
  · exact hq

/-- A producer stays suspended until it goes on. -/
theorem pending_step {p : Producer} {cmd : Command} (hp : s.sys.pending p = some cmd)
    (ha : a ≠ .resume p) (hs : Step fromSlice hw s a s') : s'.sys.pending p = some cmd := by
  rcases step_effect hs with ⟨q, cmd', -, hq, -, -, ⟨-, -, -, hp'⟩ | ⟨-, -, -, hp'⟩⟩ |
    ⟨q, cmd', rfl, -, -, -, -, -, hp'⟩ | ⟨t, cmd', -, -, -, -, -, hp'⟩ | ⟨-, -, rfl⟩
  · rw [hp', hp]
  · have hne : p ≠ q := fun he => by simp [he, hq] at hp
    rw [hp', Function.update_of_ne hne, hp]
  · have hne : p ≠ q := fun he => ha (by rw [he])
    rw [hp', Function.update_of_ne hne, hp]
  · rw [hp', hp]
  · exact hp

theorem delivered_step (hs : Step fromSlice hw s a s') : s.delivered <+: s'.delivered := by
  rcases step_effect hs with ⟨q, cmd, -, -, hd, -⟩ | ⟨q, cmd, -, -, -, hd, -⟩ |
    ⟨t, cmd, -, -, -, hd, -⟩ | ⟨-, -, rfl⟩
  · exact ⟨[], by rw [hd, List.append_nil]⟩
  · exact ⟨[], by rw [hd, List.append_nil]⟩
  · rw [hd]
    exact List.prefix_append _ _
  · exact List.prefix_refl _

/-- A loop that receives makes room on the bus. -/
theorem receive_step (hs : Step fromSlice hw s (.receive t) s') :
    s.delivered.length < s'.delivered.length ∧ ¬ s'.sys.bus.Full := by
  obtain ⟨cmd, -, hq, hd, -⟩ := receive_effect hs
  have hcap : s.sys.bus.queue.length ≤ BUS_CAPACITY := s.sys.bus.length_le
  rw [hq, List.length_cons] at hcap
  rw [hd, List.length_append, List.length_singleton, Channel.not_full_iff]
  exact ⟨by omega, by omega⟩

/-! ## Executions -/

variable {E : Execution (system fromSlice hw)}

theorem delivered_le {n m : Nat} (hm : n ≤ m) :
    (E.state n).delivered.length ≤ (E.state m).delivered.length :=
  E.keep (P := fun s => (E.state n).delivered.length ≤ s.delivered.length)
    (fun _ _ _ hle hs => Nat.le_trans hle (delivered_step hs).length_le) (Nat.le_refl _) hm

theorem log_grows {n m : Nat} (hm : n ≤ m) :
    log fromSlice (E.history n) <+: log fromSlice (E.history m) :=
  trace_grows _ (E.history_suffix hm)

theorem received_grows {n m : Nat} (hm : n ≤ m) :
    received fromSlice (E.history n) <+: received fromSlice (E.history m) :=
  trace_grows _ (E.history_suffix hm)

namespace Fair

variable (hf : Fair E) (ht : t ∈ spawned hw)

include hf ht

/-- From a bus that is not empty, a command is delivered in the end. -/
theorem exists_delivered {n : Nat} (hq : (E.state n).sys.bus.queue ≠ []) :
    ∃ m, n ≤ m ∧ (E.state n).delivered.length < (E.state m).delivered.length ∧
      ¬ (E.state m).sys.bus.Full := by
  obtain ⟨m, hm, ⟨a, ha, u, rfl⟩, -⟩ :=
    hf.receive.taken (P := fun s => s.sys.bus.queue ≠ []) (fun _ => enabled_receive ht)
      (fun _ _ _ hq ha hs => queue_ne_nil_step hq ha hs) hq
  obtain ⟨hlt, hfull⟩ := receive_step (E.step_of_some ha)
  exact ⟨m + 1, by omega, Nat.lt_of_le_of_lt (delivered_le hm) hlt, hfull⟩

/-- The bus is not full again and again. -/
theorem exists_not_full (n : Nat) : ∃ m, n ≤ m ∧ ¬ (E.state m).sys.bus.Full := by
  by_cases hfull : (E.state n).sys.bus.Full
  · obtain ⟨m, hm, -, hfree⟩ := hf.exists_delivered ht (full_ne_nil hfull)
    exact ⟨m, hm, hfree⟩
  · exact ⟨n, Nat.le_refl n, hfull⟩

/-- A suspended producer goes on in the end. -/
theorem exists_resumed {p : Producer} {cmd : Command} {n : Nat}
    (hp : (E.state n).sys.pending p = some cmd) :
    ∃ m, n ≤ m ∧ E.act m = some (.resume p) ∧ (E.state m).sys.pending p = some cmd := by
  obtain ⟨m, hm, ⟨a, ha, rfl⟩, hpm⟩ :=
    (hf.resume p).taken (P := fun s => s.sys.pending p = some cmd)
      (fun _ _ _ hp ha hs => pending_step hp ha hs) hp fun k _ hall => by
        obtain ⟨m, hm, hfree⟩ := hf.exists_not_full ht k
        exact ⟨m, hm, enabled_resume (hall m hm) hfree⟩
  exact ⟨m, hm, ha, hpm⟩

/-- A producer is not suspended again and again. -/
theorem exists_not_pending (p : Producer) (n : Nat) :
    ∃ m, n ≤ m ∧ (E.state m).sys.pending p = none := by
  cases hp : (E.state n).sys.pending p with
  | none => exact ⟨n, Nat.le_refl n, hp⟩
  | some cmd =>
    obtain ⟨m, hm, ha, -⟩ := hf.exists_resumed ht hp
    obtain ⟨-, -, -, -, -, -, hp'⟩ := resume_effect (E.step_of_some ha)
    exact ⟨m + 1, by omega, by rw [hp', Function.update_self]⟩

/-- What came in for a producer is put on the bus in the end. -/
theorem exists_enqueued (p : Producer) (n : Nat) :
    ∃ m, n ≤ m ∧ entriesOf p (received fromSlice (E.history n)) <+:
      entriesOf p (log fromSlice (E.history m)) := by
  obtain ⟨m, hm, hp⟩ := hf.exists_not_pending ht p n
  refine ⟨m, hm, ?_⟩
  have hlog := run_producer (E.run m) p
  rw [hp, Option.toList_none, List.append_nil] at hlog
  rw [← hlog]
  exact entriesOf_grows p (received_grows hm)

/-- What is on the bus is delivered in the end. -/
theorem exists_log_delivered (n : Nat) :
    ∃ m, n ≤ m ∧ log fromSlice (E.history n) <+:
      (log fromSlice (E.history m)).take (E.state m).delivered.length := by
  obtain ⟨m, hm, hle⟩ := exists_le_of_progress (f := fun i => (E.state i).delivered.length)
    (k := (log fromSlice (E.history n)).length) (n := n) fun i hi hlt => by
      have hlen := (log_grows (E := E) hi).length_le
      have hbus := congrArg List.length (run_bus (E.run i))
      simp only [List.length_map, List.length_append] at hbus
      obtain ⟨j, hj, hgrow, -⟩ := hf.exists_delivered ht (n := i)
        (List.ne_nil_of_length_pos (by omega))
      exact ⟨j, hj, hgrow⟩
  exact ⟨m, hm, List.prefix_take_iff.mpr ⟨log_grows hm, hle⟩⟩

/-- With a loop spawned, everything is delivered. -/
theorem delivers : Delivers E := by
  intro n
  obtain ⟨m₁, hm₁, hwifi⟩ := hf.exists_enqueued ht .wifiTask n
  obtain ⟨m₂, hm₂, hespnow⟩ := hf.exists_enqueued ht .espnowTask n
  obtain ⟨m, hm, hdel⟩ := hf.exists_log_delivered ht (max m₁ m₂)
  refine ⟨m, by omega, fun p => ?_⟩
  cases p with
  | wifiTask =>
    exact hwifi.trans (entriesOf_grows _ ((log_grows (Nat.le_max_left m₁ m₂)).trans hdel))
  | espnowTask =>
    exact hespnow.trans (entriesOf_grows _ ((log_grows (Nat.le_max_right m₁ m₂)).trans hdel))

end Fair

/-! ## Fair executions -/

theorem not_enabled_resume {p : Producer} (hp : s.sys.pending p = none) :
    ¬ Enabled (system fromSlice hw) (· = .resume p) s := by
  rintro ⟨a, s', rfl, hs⟩
  obtain ⟨cmd, hcmd, -⟩ := resume_effect hs
  simp [hp] at hcmd

theorem not_enabled_receive (h : s.sys.bus.queue = [] ∨ spawned hw = []) :
    ¬ Enabled (system fromSlice hw) IsReceive s := by
  rintro ⟨a, s', ⟨t, rfl⟩, hs⟩
  obtain ⟨cmd, ht, hq, -⟩ := receive_effect hs
  rcases h with h | h
  · simp [h] at hq
  · simp [h] at ht

/-- An execution that stays where nothing can be received and nobody is suspended
is fair. -/
theorem fair_of_staying {k : Nat} (hE : ∀ n, k ≤ n → E.state n = s)
    (hr : s.sys.bus.queue = [] ∨ spawned hw = []) (hp : ∀ p, s.sys.pending p = none) : Fair E := by
  constructor
  · refine (Execution.stronglyFair_of_disabled (k := k) fun n hn => ?_).weaklyFair
    rw [hE n hn]
    exact not_enabled_receive hr
  · intro p
    refine Execution.stronglyFair_of_disabled (k := k) fun n hn => ?_
    rw [hE n hn]
    exact not_enabled_resume (hp p)

/-- A bound on the steps that deliver what is in flight. -/
def inFlight (s : State) : Nat :=
  s.sys.bus.queue.length +
    2 * ((s.sys.pending .wifiTask).toList.length + (s.sys.pending .espnowTask).toList.length)

/-- With a loop spawned, what is in flight can be brought one step further. -/
theorem exists_progress (ht : t ∈ spawned hw) (h : inFlight s ≠ 0) :
    ∃ a s', Step fromSlice hw s a s' ∧ inFlight s' < inFlight s := by
  by_cases hq : s.sys.bus.queue = []
  · have hfree : ¬ s.sys.bus.Full := by
      rw [Channel.not_full_iff, hq]
      decide
    obtain ⟨p, cmd, hp⟩ : ∃ p cmd, s.sys.pending p = some cmd := by
      by_contra hn
      have hnone : ∀ p, s.sys.pending p = none := fun p =>
        Option.eq_none_iff_forall_ne_some.mpr fun cmd hc => hn ⟨p, cmd, hc⟩
      exact h (by simp [inFlight, hq, hnone])
    have hen : Enabled (system fromSlice hw) (· = .resume p) s := enabled_resume hp hfree
    obtain ⟨_, s', rfl, hs⟩ := hen
    obtain ⟨cmd', -, -, -, -, hq', hp'⟩ := resume_effect hs
    refine ⟨_, s', hs, ?_⟩
    simp only [inFlight, hq', hp', hq]
    cases p <;> simp [hp] <;> omega
  · have hen : Enabled (system fromSlice hw) IsReceive s := enabled_receive ht hq
    obtain ⟨_, s', ⟨u, rfl⟩, hs⟩ := hen
    obtain ⟨cmd, -, hq', -, -, hp'⟩ := receive_effect hs
    refine ⟨_, s', hs, ?_⟩
    simp [inFlight, hq', hp']

/-- With a loop spawned, what is in flight can be delivered. -/
theorem exists_quiet (ht : t ∈ spawned hw) {h : List (State × Action)}
    (hr : Run (system fromSlice hw) h s) :
    ∃ h' s', Run (system fromSlice hw) h' s' ∧ h <:+ h' ∧ inFlight s' = 0 := by
  induction hn : inFlight s using Nat.strongRecOn generalizing h s with
  | ind n ih =>
    by_cases h0 : inFlight s = 0
    · exact ⟨h, s, hr, List.suffix_refl h, h0⟩
    · obtain ⟨a, s', hs, hlt⟩ : ∃ a s', Step fromSlice hw s a s' ∧ inFlight s' < inFlight s :=
        exists_progress ht h0
      obtain ⟨h', s'', hr', hsuf, hquiet⟩ := ih _ (by omega) (hr.next hs) rfl
      exact ⟨h', s'', hr', (List.suffix_cons _ _).trans hsuf, hquiet⟩

theorem inFlight_eq_zero (h : inFlight s = 0) :
    s.sys.bus.queue = [] ∧ ∀ p, s.sys.pending p = none := by
  have hlen : s.sys.bus.queue.length = 0 ∧ (s.sys.pending .wifiTask).toList.length = 0 ∧
      (s.sys.pending .espnowTask).toList.length = 0 := by
    simp only [inFlight] at h
    omega
  refine ⟨List.length_eq_zero_iff.mp hlen.1, fun p => ?_⟩
  cases p with
  | wifiTask => exact Option.toList_eq_nil_iff.mp (List.length_eq_zero_iff.mp hlen.2.1)
  | espnowTask => exact Option.toList_eq_nil_iff.mp (List.length_eq_zero_iff.mp hlen.2.2)

/-- With a loop spawned, every run is the beginning of a fair execution. -/
theorem exists_fair (ht : t ∈ spawned hw) {h : List (State × Action)}
    (hr : Run (system fromSlice hw) h s) :
    ∃ (E : Execution (system fromSlice hw)) (k : Nat), h <:+ E.history k ∧ Fair E := by
  obtain ⟨h', s', hr', hsuf, h0⟩ := exists_quiet ht hr
  obtain ⟨hq, hp⟩ := inFlight_eq_zero h0
  obtain ⟨E, k, hk, hE⟩ := Execution.exists_staying hr'
  exact ⟨E, k, by rw [hk]; exact hsuf, fair_of_staying hE (.inl hq) hp⟩

/-- On a bare board, a command that came in is never delivered. -/
theorem exists_undelivered (h0 : spawned hw = []) {payload : List UInt8} {cmd : Command}
    (hc : parseEspnowPayload fromSlice payload = some cmd) :
    ∃ E : Execution (system fromSlice hw), Fair E ∧ ¬ Delivers E := by
  have hr : Run (system fromSlice hw) _ _ :=
    .next (.start rfl) (.espnowAccepted hc (.send rfl rfl))
  obtain ⟨E, k, hk, hE⟩ := Execution.exists_staying hr
  refine ⟨E, fair_of_staying hE (.inr h0) fun _ => rfl, fun hd => ?_⟩
  obtain ⟨m, hm, hp⟩ := hd k
  have hlen := (hp .espnowTask).length_le
  rw [hE m hm, hk] at hlen
  simp [received, trace, incoming, hc, initial] at hlen

end

/-- On the board that `main` boots into on the I2C bus `i2c`, with a decoder that
accepts some payload: every fair execution delivers all that comes in exactly if a
probe was acknowledged. -/
theorem delivers_iff {σ ε : Type} (i2c : I2c σ ε) (s : σ)
    (fromSlice : List UInt8 → Option ApiCommand) {payload : List UInt8} {cmd : Command}
    (hc : parseEspnowPayload fromSlice payload = some cmd) :
    (∀ E : Execution (system fromSlice (probeHardware i2c s).1), Fair E → Delivers E) ↔
      true ∈ probeAnswers i2c s := by
  rw [← spawned_ne_nil_iff]
  constructor
  · intro hall h0
    obtain ⟨E, hf, hd⟩ := exists_undelivered h0 hc
    exact hd (hall E hf)
  · intro hne E hf
    obtain ⟨t, ht⟩ := List.exists_mem_of_ne_nil _ hne
    exact hf.delivers ht

/-- The I2C bus of a board with a camera alone. -/
def cameraI2c : I2c Unit Unit :=
  ⟨fun s address buf => (if address = CAMERA_SCCB_ADDR then .ok () else .error (), buf, s)⟩

/-- With a camera alone, `camera_task_loop` gets all video commands. -/
theorem camera_delivers : spawned (probeHardware cameraI2c ()).1 = [.cameraTaskLoop] ∧
    ∀ E : Execution (system flagDecoder (probeHardware cameraI2c ()).1), Fair E → Delivers E :=
  have hc : parseEspnowPayload flagDecoder [] = some (.streamVideo true) := rfl
  ⟨rfl, (delivers_iff cameraI2c () flagDecoder hc).mpr (by decide)⟩

/-! ## Starvation -/

/-- A payload that comes in for a producer. -/
def arrival (p : Producer) (text : String) : Action :=
  match p with
  | .wifiTask => .http (CommandPost.plain text).bytes
  | .espnowTask => .espnow (Str.bytes text)

section

variable {fromSlice : List UInt8 → Option ApiCommand} {hw : DetectedHardware} {s s' : State}
  {t : TaskLoop} {text : String} {cmd : Command}

theorem incoming_arrival (hc : parseEspnowPayload fromSlice (Str.bytes text) = some cmd)
    (p : Producer) : incoming fromSlice (arrival p text) = some (p, cmd) := by
  cases p with
  | wifiTask =>
    have hreq : handleRequest fromSlice (CommandPost.plain text).bytes = _ :=
      handleRequest_commandPost _
    rw [show (CommandPost.plain text).payload = text from rfl, hc] at hreq
    simp only [arrival, incoming, hreq]
  | espnowTask => simp only [arrival, incoming, hc, Option.map_some]

/-- A payload comes in for a producer that is not suspended. -/
theorem exists_arrival (hw : DetectedHardware)
    (hc : parseEspnowPayload fromSlice (Str.bytes text) = some cmd) {p : Producer}
    (hp : s.sys.pending p = none) : ∃ s', Step fromSlice hw s (arrival p text) s' := by
  have hreq : handleRequest fromSlice (CommandPost.plain text).bytes = _ :=
    handleRequest_commandPost _
  rw [show (CommandPost.plain text).payload = text from rfl, hc] at hreq
  obtain ⟨sys', hs⟩ : ∃ sys', Bus.Step hw s.sys (.send p cmd) sys' := by
    by_cases hf : s.sys.bus.Full
    · exact ⟨_, .suspend hp (Channel.trySend_eq_none.mpr hf)⟩
    · obtain ⟨bus', hs⟩ := Channel.exists_trySend hf cmd
      exact ⟨_, .send hp hs⟩
  cases p with
  | wifiTask => exact ⟨_, .httpAccepted hreq hs⟩
  | espnowTask => exact ⟨_, .espnowAccepted hc hs⟩

/-- What comes in goes to the bus, or suspends the producer. -/
theorem arrival_effect (hc : parseEspnowPayload fromSlice (Str.bytes text) = some cmd)
    {p : Producer} (hs : Step fromSlice hw s (arrival p text) s') :
    (¬ s.sys.bus.Full ∧ s'.sys.bus.queue = s.sys.bus.queue ++ [cmd] ∧
        s'.sys.pending = s.sys.pending) ∨
      (s.sys.bus.Full ∧ s'.sys.bus.queue = s.sys.bus.queue ∧
        s'.sys.pending = Function.update s.sys.pending p (some cmd)) := by
  exact (incoming_effect (incoming_arrival hc p) hs).imp (fun ⟨hf, _, hq, hp⟩ => ⟨hf, hq, hp⟩) id

end

end SrkOS.Proof.Ingress
