import SrkOS.Framework.Execution
import SrkOS.Framework.Writers
import SrkOS.Proof.Bus.Handlers
import SrkOS.Proof.Bus.Servo

/-!
# Delivery

What comes in for a producer (`received`) is put on the bus in the order in which
it came (`log`), and the task loops take it off in that order: every command
accepted is delivered to one loop, or is on the bus, or is the one its producer is
suspended with (`delivered_in_order`). So at most `BUS_CAPACITY` commands and one
for each producer are in flight.

A loop's state is that of the commands delivered to it. Where nobody else has
taken commands it handles, and nothing is in flight, that is the state to which
the commands of one producer alone lead, in the order in which they came in
(`settled_states`): how the producers were interleaved does not show, but for
whose command came last.
-/

namespace SrkOS.Proof.Ingress

open Framework SrkOS.Impl SrkOS.Impl.Ingress SrkOS.Proof.Bus SrkOS.Proof.Http

/-- The command that comes in with an action, and its producer. -/
def incoming (fromSlice : List UInt8 → Option ApiCommand) : Action → Option (Producer × Command)
  | .http raw =>
    match handleRequest fromSlice raw with
    | .ok (some (.commandAccepted cmd)) => some (.wifiTask, cmd)
    | _ => none
  | .espnow data => (parseEspnowPayload fromSlice data).map (Prod.mk .espnowTask)
  | .resume _ => none
  | .receive _ => none

/-- The command that a step puts on the bus, and its producer. -/
def enqueued (fromSlice : List UInt8 → Option ApiCommand) (s : State) :
    Action → Option (Producer × Command)
  | .resume p => (s.sys.pending p).map (Prod.mk p)
  | a => if s.sys.bus.Full then none else incoming fromSlice a

/-- The commands that came in, oldest first. -/
def received (fromSlice : List UInt8 → Option ApiCommand) (h : List (State × Action)) :
    List (Producer × Command) :=
  trace (fun _ => incoming fromSlice) h

/-- The commands put on the bus, oldest first. -/
def log (fromSlice : List UInt8 → Option ApiCommand) (h : List (State × Action)) :
    List (Producer × Command) :=
  trace (enqueued fromSlice) h

/-! ## Steps -/

section

variable {fromSlice : List UInt8 → Option ApiCommand} {hw : DetectedHardware}

theorem enqueued_of_ne {s : State} {a : Action} (ha : ∀ p, a ≠ .resume p) :
    enqueued fromSlice s a = if s.sys.bus.Full then none else incoming fromSlice a := by
  cases a with
  | resume p => exact absurd rfl (ha p)
  | http | espnow | receive => rfl

/-- What comes in goes to the end of the bus, or suspends its producer if the bus
is full. -/
theorem send_effect {s : State} {a : Action} {sys' : Bus.State} {q : Producer} {cmd : Command}
    (ha : ∀ p, a ≠ .resume p) (hin : incoming fromSlice a = some (q, cmd))
    (hs : Bus.Step hw s.sys (.send q cmd) sys') :
    s.sys.pending q = none ∧ sys'.tasks = s.sys.tasks ∧
    (¬ s.sys.bus.Full ∧ enqueued fromSlice s a = some (q, cmd) ∧
        sys'.bus.queue = s.sys.bus.queue ++ [cmd] ∧ sys'.pending = s.sys.pending ∨
      s.sys.bus.Full ∧ enqueued fromSlice s a = none ∧ sys'.bus.queue = s.sys.bus.queue ∧
        sys'.pending = Function.update s.sys.pending q (some cmd)) := by
  have henq : enqueued fromSlice s a = _ := enqueued_of_ne ha
  cases hs with
  | send hp ht =>
    obtain ⟨hf, hq⟩ := Channel.trySend_eq_some.mp ht
    exact ⟨hp, rfl, .inl ⟨hf, by rw [henq, if_neg hf, hin], hq, rfl⟩⟩
  | suspend hp ht =>
    have hf := Channel.trySend_eq_none.mp ht
    exact ⟨hp, rfl, .inr ⟨hf, by rw [henq, if_pos hf], rfl, rfl⟩⟩

theorem resume_effect {s s' : State} {q : Producer} (hs : Step fromSlice hw s (.resume q) s') :
    ∃ cmd, s.sys.pending q = some cmd ∧ ¬ s.sys.bus.Full ∧ s'.delivered = s.delivered ∧
      s'.sys.tasks = s.sys.tasks ∧ s'.sys.bus.queue = s.sys.bus.queue ++ [cmd] ∧
      s'.sys.pending = Function.update s.sys.pending q none := by
  cases hs with
  | resume hs =>
    cases hs with
    | resume hp ht =>
      obtain ⟨hf, hq⟩ := Channel.trySend_eq_some.mp ht
      exact ⟨_, hp, hf, rfl, rfl, hq, rfl⟩

theorem receive_effect {s s' : State} {t : TaskLoop} (hs : Step fromSlice hw s (.receive t) s') :
    ∃ cmd, t ∈ spawned hw ∧ s.sys.bus.queue = cmd :: s'.sys.bus.queue ∧
      s'.delivered = s.delivered ++ [(t, cmd)] ∧ s'.sys.tasks = s.sys.tasks.handle cmd t ∧
      s'.sys.pending = s.sys.pending := by
  cases hs with
  | receive hq hs =>
    cases hs with
    | receive ht hr =>
      have hq' := Channel.tryReceive_eq_some.mp hr
      rw [hq', List.head?_cons, Option.some.injEq] at hq
      exact ⟨_, ht, by rw [hq', hq], rfl, by rw [← hq], rfl⟩

/-- What a step does: something comes in and is put on the bus; comes in and
suspends its producer; is put on the bus by a suspended producer; is taken off; or
nothing happens. -/
theorem step_effect {s s' : State} {a : Action} (hs : Step fromSlice hw s a s') :
    (∃ q cmd, incoming fromSlice a = some (q, cmd) ∧ s.sys.pending q = none ∧
      s'.delivered = s.delivered ∧ s'.sys.tasks = s.sys.tasks ∧
      (¬ s.sys.bus.Full ∧ enqueued fromSlice s a = some (q, cmd) ∧
          s'.sys.bus.queue = s.sys.bus.queue ++ [cmd] ∧ s'.sys.pending = s.sys.pending ∨
        s.sys.bus.Full ∧ enqueued fromSlice s a = none ∧ s'.sys.bus.queue = s.sys.bus.queue ∧
          s'.sys.pending = Function.update s.sys.pending q (some cmd))) ∨
    (∃ q cmd, a = .resume q ∧ s.sys.pending q = some cmd ∧ ¬ s.sys.bus.Full ∧
      s'.delivered = s.delivered ∧ s'.sys.tasks = s.sys.tasks ∧
      s'.sys.bus.queue = s.sys.bus.queue ++ [cmd] ∧
      s'.sys.pending = Function.update s.sys.pending q none) ∨
    (∃ t cmd, a = .receive t ∧ t ∈ spawned hw ∧ s.sys.bus.queue = cmd :: s'.sys.bus.queue ∧
      s'.delivered = s.delivered ++ [(t, cmd)] ∧ s'.sys.tasks = s.sys.tasks.handle cmd t ∧
      s'.sys.pending = s.sys.pending) ∨
    (incoming fromSlice a = none ∧ enqueued fromSlice s a = none ∧ s' = s) := by
  cases hs with
  | @httpAccepted raw cmd sys' hc hs =>
    have hin : incoming fromSlice (.http raw) = some (.wifiTask, cmd) := by
      simp only [incoming, hc]
    obtain ⟨hp, ht, hb⟩ := send_effect (by simp) hin hs
    exact .inl ⟨_, cmd, hin, hp, rfl, ht, hb⟩
  | @httpOther raw hp hc =>
    have hin : incoming fromSlice (.http raw) = none := by
      show (match handleRequest fromSlice raw with
        | .ok (some (.commandAccepted cmd)) => some (Producer.wifiTask, cmd)
        | _ => none) = none
      split
      · rename_i cmd hcmd
        exact absurd hcmd (hc cmd)
      · rfl
    exact .inr (.inr (.inr ⟨hin, by rw [enqueued_of_ne (by simp), hin, ite_self], rfl⟩))
  | @espnowAccepted data cmd sys' hc hs =>
    have hin : incoming fromSlice (.espnow data) = some (.espnowTask, cmd) := by
      simp only [incoming, hc, Option.map_some]
    obtain ⟨hp, ht, hb⟩ := send_effect (by simp) hin hs
    exact .inl ⟨_, cmd, hin, hp, rfl, ht, hb⟩
  | @espnowDiscarded data hp hc =>
    have hin : incoming fromSlice (.espnow data) = none := by
      simp only [incoming, hc, Option.map_none]
    exact .inr (.inr (.inr ⟨hin, by rw [enqueued_of_ne (by simp), hin, ite_self], rfl⟩))
  | @resume p sys' hb =>
    have hs : Step fromSlice hw s (.resume p) { s with sys := sys' } := .resume hb
    obtain ⟨cmd, hp, heff⟩ := resume_effect hs
    exact .inr (.inl ⟨p, cmd, rfl, hp, heff⟩)
  | @receive t cmd sys' hq hb =>
    have hs : Step fromSlice hw s (.receive t) ⟨sys', s.delivered ++ [(t, cmd)]⟩ := .receive hq hb
    obtain ⟨cmd', heff⟩ := receive_effect hs
    exact .inr (.inr (.inl ⟨t, cmd', rfl, heff⟩))

/-- What comes in is put on the bus, or suspends its producer. -/
theorem incoming_effect {s s' : State} {a : Action} {p : Producer} {cmd : Command}
    (hin : incoming fromSlice a = some (p, cmd)) (hs : Step fromSlice hw s a s') :
    ¬ s.sys.bus.Full ∧ enqueued fromSlice s a = some (p, cmd) ∧
        s'.sys.bus.queue = s.sys.bus.queue ++ [cmd] ∧ s'.sys.pending = s.sys.pending ∨
      s.sys.bus.Full ∧ s'.sys.bus.queue = s.sys.bus.queue ∧
        s'.sys.pending = Function.update s.sys.pending p (some cmd) := by
  rcases step_effect hs with ⟨q, cmd', hin', -, -, -, hcase⟩ | ⟨q, cmd', rfl, -⟩ |
    ⟨u, cmd', rfl, -⟩ | ⟨hnone, -⟩
  · rw [hin, Option.some.injEq, Prod.mk.injEq] at hin'
    obtain ⟨rfl, rfl⟩ := hin'
    exact hcase.imp id fun ⟨hf, _, hq, hp⟩ => ⟨hf, hq, hp⟩
  · simp [incoming] at hin
  · simp [incoming] at hin
  · simp [hnone] at hin

variable {s s' : State} {a : Action}

/-- A step takes off the front of the bus what it delivers, and puts at its end
what it enqueues. -/
theorem step_bus (hs : Step fromSlice hw s a s') :
    s'.delivered.map Prod.snd ++ s'.sys.bus.queue =
      s.delivered.map Prod.snd ++ s.sys.bus.queue ++
        (enqueued fromSlice s a).toList.map Prod.snd := by
  rcases step_effect hs with ⟨q, cmd, -, -, hd, -, ⟨-, he, hq, -⟩ | ⟨-, he, hq, -⟩⟩ |
    ⟨q, cmd, rfl, hp, -, hd, -, hq, -⟩ | ⟨t, cmd, rfl, -, hq, hd, -, -⟩ | ⟨-, he, rfl⟩
  · simp [hd, hq, he]
  · simp [hd, hq, he]
  · simp [hd, hq, enqueued, hp]
  · simp [hd, hq, enqueued, incoming]
  · simp [he]

/-- What comes in for a producer waits in it, if it does not go to the bus. -/
theorem step_producer (hs : Step fromSlice hw s a s') (p : Producer) :
    (s.sys.pending p).toList ++ entriesOf p (incoming fromSlice a).toList =
      entriesOf p (enqueued fromSlice s a).toList ++ (s'.sys.pending p).toList := by
  rcases step_effect hs with ⟨q, cmd, hin, hpq, -, -, ⟨-, he, -, hp⟩ | ⟨-, he, -, hp⟩⟩ |
    ⟨q, cmd, rfl, hpq, -, -, -, -, hp⟩ | ⟨t, cmd, rfl, -, -, -, -, hp⟩ | ⟨hin, he, rfl⟩
  · by_cases hq : q = p
    · subst hq
      simp [hin, he, hp, hpq]
    · simp [hin, he, hp, hq]
  · by_cases hq : q = p
    · subst hq
      simp [hin, he, hp, hpq]
    · simp [hin, he, hp, hq, Function.update_of_ne (Ne.symm hq)]
  · by_cases hq : q = p
    · subst hq
      simp [incoming, enqueued, hp, hpq]
    · simp [incoming, enqueued, hp, hpq, hq, Function.update_of_ne (Ne.symm hq)]
  · simp [incoming, enqueued, hp]
  · simp [hin, he]

/-- Each loop is up to date with what was delivered to it. -/
theorem step_upToDate (hs : Step fromSlice hw s a s') (u : TaskLoop)
    (h : UpToDate s.sys.tasks (entriesOf u s.delivered) u) :
    UpToDate s'.sys.tasks (entriesOf u s'.delivered) u := by
  rcases step_effect hs with ⟨q, cmd, -, -, hd, ht, -⟩ | ⟨q, cmd, -, -, -, hd, ht, -, -⟩ |
    ⟨t, cmd, -, -, -, hd, ht, -⟩ | ⟨-, -, rfl⟩
  · rw [hd, ht]
    exact h
  · rw [hd, ht]
    exact h
  · rw [hd, ht, entriesOf_append, entriesOf_singleton]
    by_cases hut : t = u
    · subst hut
      rw [if_pos rfl]
      exact h.receive cmd
    · rw [if_neg hut, List.append_nil]
      exact (upToDate_handle_ne (Ne.symm hut)).mpr h
  · exact h

/-! ## Runs -/

variable {h : List (State × Action)}

theorem run_bus (hr : Run (system fromSlice hw) h s) :
    (log fromSlice h).map Prod.snd = s.delivered.map Prod.snd ++ s.sys.bus.queue := by
  induction hr with
  | @start s hi =>
    have hs : s = initial := hi
    rw [hs]
    rfl
  | next _ hs ih =>
    simp only [log] at ih
    rw [step_bus hs, log, trace_cons, List.map_append, ih]

/-- What was delivered was put on the bus first. -/
theorem run_delivered (hr : Run (system fromSlice hw) h s) :
    s.delivered.map Prod.snd = ((log fromSlice h).take s.delivered.length).map Prod.snd := by
  rw [List.map_take, run_bus hr, List.take_left' (List.length_map _)]

theorem run_producer (hr : Run (system fromSlice hw) h s) (p : Producer) :
    entriesOf p (received fromSlice h) =
      entriesOf p (log fromSlice h) ++ (s.sys.pending p).toList := by
  induction hr with
  | @start s hi =>
    have hs : s = initial := hi
    rw [hs]
    rfl
  | next _ hs ih =>
    simp only [received, log] at ih
    simp only [received, log, trace_cons, entriesOf_append, ih, List.append_assoc,
      step_producer hs p]

theorem run_receivers (hr : Run (system fromSlice hw) h s) :
    ∀ e ∈ s.delivered, e.1 ∈ spawned hw :=
  hr.invariant (P := fun s => ∀ e ∈ s.delivered, e.1 ∈ spawned hw)
    (fun s hi => by rw [show s = initial from hi]; exact nofun) fun s a s' h hs => by
      rcases step_effect hs with ⟨q, cmd, -, -, hd, -⟩ | ⟨q, cmd, -, -, -, hd, -⟩ |
        ⟨t, cmd, -, ht, -, hd, -⟩ | ⟨-, -, rfl⟩
      · rw [hd]
        exact h
      · rw [hd]
        exact h
      · intro e he
        rw [hd, List.mem_append, List.mem_singleton] at he
        rcases he with he | rfl
        · exact h e he
        · exact ht
      · exact h

theorem run_upToDate (hr : Run (system fromSlice hw) h s) (u : TaskLoop) :
    UpToDate s.sys.tasks (entriesOf u s.delivered) u :=
  hr.invariant (P := fun s => UpToDate s.sys.tasks (entriesOf u s.delivered) u)
    (fun s hi => by rw [show s = initial from hi]; exact upToDate_initial u)
    fun _ _ _ hu hs => step_upToDate hs u hu

end

/-- The producers of a list of commands are the two. -/
theorem length_entriesOf (l : List (Producer × Command)) :
    l.length = (entriesOf .wifiTask l).length + (entriesOf .espnowTask l).length := by
  induction l with
  | nil => rfl
  | cons e l ih =>
    obtain ⟨p, cmd⟩ := e
    rw [← List.singleton_append, entriesOf_append, entriesOf_append, entriesOf_singleton,
      entriesOf_singleton]
    simp only [List.length_append, ih]
    cases p <;> simp <;> omega

theorem length_toList_le (o : Option Command) : o.toList.length ≤ 1 := by
  cases o <;> simp

/-- For every JSON decoder, on every board, in every run: the commands delivered are
the first of those put on the bus, in their order, and the bus holds the others; what
came in for a producer was put on the bus in the order in which it came, but for the
command the producer is suspended with, which came last; and at most `BUS_CAPACITY`
commands and one for each of the two producers have come in and not been delivered. -/
theorem delivered_in_order (fromSlice : List UInt8 → Option ApiCommand) (hw : DetectedHardware)
    {h : List (State × Action)} {s : State} (hr : Run (system fromSlice hw) h s) :
    s.delivered.map Prod.snd = ((log fromSlice h).take s.delivered.length).map Prod.snd ∧
    s.sys.bus.queue = ((log fromSlice h).drop s.delivered.length).map Prod.snd ∧
    (∀ p, entriesOf p (received fromSlice h) =
      entriesOf p (log fromSlice h) ++ (s.sys.pending p).toList) ∧
    (received fromSlice h).length ≤ s.delivered.length + BUS_CAPACITY + 2 := by
  have hbus := run_bus hr
  have hlen : (s.delivered.map Prod.snd).length = s.delivered.length := List.length_map _
  refine ⟨run_delivered hr, ?_, run_producer hr, ?_⟩
  · rw [List.map_drop, hbus, List.drop_left' hlen]
  · have hlog : (log fromSlice h).length = s.delivered.length + s.sys.bus.queue.length := by
      rw [← List.length_map Prod.snd, hbus, List.length_append, hlen]
    have hcap : s.sys.bus.queue.length ≤ BUS_CAPACITY := s.sys.bus.length_le
    have hsum := length_entriesOf (received fromSlice h)
    rw [run_producer hr, run_producer hr, List.length_append, List.length_append] at hsum
    have hlogsum := length_entriesOf (log fromSlice h)
    have h₁ := length_toList_le (s.sys.pending .wifiTask)
    have h₂ := length_toList_le (s.sys.pending .espnowTask)
    omega

/-- A decoder that makes a video command of everything. -/
def flagDecoder (data : List UInt8) : Option ApiCommand := some (.streamVideo (decide (data = [])))

/-- With the camera alone, video is switched on over HTTP, and off over ESP-NOW. -/
theorem run_on_off : ∃ h s, Run (system flagDecoder ⟨false, true, false⟩) h s ∧
    s.delivered = [(.cameraTaskLoop, .streamVideo true), (.cameraTaskLoop, .streamVideo false)] ∧
    s.sys.bus.queue = [] ∧ (∀ p, s.sys.pending p = none) ∧ s.sys.tasks.camera = .idle := by
  have hc : handleRequest flagDecoder (CommandPost.plain "").bytes =
      .ok (some (.commandAccepted (.streamVideo true))) := handleRequest_commandPost _
  have hoff : parseEspnowPayload flagDecoder [0xFF] = some (.streamVideo false) := rfl
  have h₁ : Run (system flagDecoder ⟨false, true, false⟩) _ _ :=
    .next (.start rfl) (.httpAccepted hc (.send rfl rfl))
  have h₂ := h₁.next (.espnowAccepted hoff (.send rfl rfl))
  have h₃ := h₂.next (.receive rfl (.receive (t := .cameraTaskLoop) (by decide) rfl))
  have h₄ := h₃.next (.receive rfl (.receive (t := .cameraTaskLoop) (by decide) rfl))
  exact ⟨_, _, h₄, rfl, rfl, fun _ => rfl, rfl⟩

/-- Both commands are delivered, in the order in which they were put on the bus. -/
theorem delivered_on_off : ∃ h s, Run (system flagDecoder ⟨false, true, false⟩) h s ∧
    ((log flagDecoder h).take 2).map Prod.snd = [.streamVideo true, .streamVideo false] := by
  obtain ⟨h, s, hr, hd, -⟩ := run_on_off
  refine ⟨h, s, hr, ?_⟩
  have hlog := (delivered_in_order flagDecoder ⟨false, true, false⟩ hr).1
  rw [hd] at hlog
  exact hlog.symm

/-! ## Settled states -/

section

variable {κ : Type} [DecidableEq κ] {ts : TaskStates} {t : TaskLoop}

/-- If nobody but `k` has commands that the loop handles, only those of `k`
count. -/
theorem upToDate_entriesOf {k : κ} {l : List (κ × Command)}
    (hk : ∀ e ∈ l, e.1 ≠ k → handles t e.2 = false) :
    UpToDate ts (l.map Prod.snd) t ↔ UpToDate ts (entriesOf k l) t := by
  cases t with
  | oledTaskLoop =>
    simp only [UpToDate, foldl_entriesOf fun e he hne => handleCommand_ignores (hk e he hne)]
  | cameraTaskLoop =>
    simp only [UpToDate, foldl_entriesOf fun e he hne => handleCameraCommand_ignores (hk e he hne)]
  | audioTaskLoop =>
    simp only [UpToDate, foldl_entriesOf fun e he hne => handleAudioCommand_ignores (hk e he hne)]

/-- A loop up to date with the commands of several is so with those of one of
them. -/
theorem exists_upToDate [Nonempty κ] {l : List (κ × Command)} (h : UpToDate ts (l.map Prod.snd) t) :
    ∃ k, UpToDate ts (entriesOf k l) t := by
  cases t with
  | oledTaskLoop =>
    obtain ⟨k, hk⟩ := handleCommand_overwrites.exists_writer l .blank
    exact ⟨k, h.trans hk⟩
  | cameraTaskLoop =>
    obtain ⟨k, hk⟩ := handleCameraCommand_overwrites.exists_writer l .idle
    exact ⟨k, h.trans hk⟩
  | audioTaskLoop =>
    obtain ⟨k, hk⟩ := handleAudioCommand_overwrites.exists_writer l .idle
    exact ⟨k, h.trans hk⟩

end

/-- For every JSON decoder, on every board, in every run: where no other loop has
taken a command that the loop `t` handles, and nothing is in flight, `t` is in the
state that the commands of one producer alone lead to, in the order in which they
came in; and of a given one, if no other had commands that `t` handles. -/
theorem settled_states (fromSlice : List UInt8 → Option ApiCommand) (hw : DetectedHardware)
    {h : List (State × Action)} {s : State} (hr : Run (system fromSlice hw) h s) {t : TaskLoop}
    (ht : ∀ e ∈ s.delivered, e.1 ≠ t → handles t e.2 = false) (hq : s.sys.bus.queue = [])
    (hp : ∀ p, s.sys.pending p = none) :
    (∃ p, UpToDate s.sys.tasks (entriesOf p (received fromSlice h)) t) ∧
    ∀ p, (∀ e ∈ received fromSlice h, e.1 ≠ p → handles t e.2 = false) →
      UpToDate s.sys.tasks (entriesOf p (received fromSlice h)) t := by
  have hlog : ∀ p, entriesOf p (received fromSlice h) = entriesOf p (log fromSlice h) := by
    intro p
    rw [run_producer hr, hp, Option.toList_none, List.append_nil]
  have hup : UpToDate s.sys.tasks ((log fromSlice h).map Prod.snd) t := by
    rw [run_bus hr, hq, List.append_nil, upToDate_entriesOf ht]
    exact run_upToDate hr t
  constructor
  · have : Nonempty Producer := ⟨.wifiTask⟩
    obtain ⟨p, hup⟩ := exists_upToDate hup
    exact ⟨p, by rw [hlog]; exact hup⟩
  · intro p honly
    rw [hlog, ← upToDate_entriesOf fun e he hne => ?_]
    · exact hup
    · have hm : e.2 ∈ entriesOf e.1 (log fromSlice h) := mem_entriesOf.mpr he
      rw [← hlog, mem_entriesOf] at hm
      exact honly e hm hne

/-- The camera is in the state that the commands of one producer lead to. -/
theorem settled_on_off : ∃ h s, Run (system flagDecoder ⟨false, true, false⟩) h s ∧
    s.sys.tasks.camera = .idle ∧
    ∃ p, UpToDate s.sys.tasks (entriesOf p (received flagDecoder h)) .cameraTaskLoop := by
  obtain ⟨h, s, hr, hd, hq, hp, hcam⟩ := run_on_off
  refine ⟨h, s, hr, hcam, (settled_states _ _ hr (fun e he hne => ?_) hq hp).1⟩
  rw [hd] at he
  simp only [List.mem_cons, List.not_mem_nil, or_false] at he
  rcases he with rfl | rfl <;> exact absurd rfl hne

end SrkOS.Proof.Ingress
