import SrkOS.Framework.Lists
import SrkOS.Impl.BusSystem

/-!
# Updates on the command bus

A task loop that receives a command runs only its own handler, which ignores
the commands of the other loops; the command is gone. So a loop's state is the
fold of its handler over the commands sent (`UpToDate`) as long as no other
loop takes a command of its (`Routed`): `always_updatesKept`, from what a step
does to the bus (`step_cases`). With two loops spawned, one can always take the
other's command (`exists_taken`), so that only the boards with at most one loop
never lose an update (`always_updatesKept_iff`).
-/

namespace SrkOS.Proof.Bus

open Framework SrkOS.Impl SrkOS.Impl.Bus

/-- Whether a task loop's handler acts on a command. -/
def handles : TaskLoop → Command → Bool
  | .oledTaskLoop, .setFaceExpression _ => true
  | .cameraTaskLoop, .streamVideo _ => true
  | .audioTaskLoop, .streamAudio _ => true
  | _, _ => false

/-- The state of a task loop is the fold of its handler over `cmds`. -/
def UpToDate (ts : TaskStates) (cmds : List Command) : TaskLoop → Prop
  | .oledTaskLoop => ts.oled = cmds.foldl handleCommand .blank
  | .cameraTaskLoop => ts.camera = cmds.foldl handleCameraCommand .idle
  | .audioTaskLoop => ts.audio = cmds.foldl handleAudioCommand .idle

/-- Once the bus is empty, every spawned loop has seen every command sent. -/
def UpdatesKept (hw : DetectedHardware) (s : State) : Prop :=
  s.bus.queue = [] → ∀ t ∈ spawned hw, UpToDate s.tasks s.sent t

/-- A command received is not one that another spawned loop acts on. -/
def Routed (hw : DetectedHardware) (s : State) (a : Action) : Prop :=
  ∀ t cmd, a = .receive t → s.bus.queue.head? = some cmd →
    ∀ u ∈ spawned hw, u ≠ t → handles u cmd = false

/-! ## Handlers -/

theorem handleCommand_ignores {cmd : Command} (h : handles .oledTaskLoop cmd = false)
    (state : OledState) : handleCommand state cmd = state := by
  cases cmd <;> first | rfl | cases h

theorem handleCameraCommand_ignores {cmd : Command} (h : handles .cameraTaskLoop cmd = false)
    (state : CameraState) : handleCameraCommand state cmd = state := by
  cases cmd <;> first | rfl | cases h

theorem handleAudioCommand_ignores {cmd : Command} (h : handles .audioTaskLoop cmd = false)
    (state : AudioState) : handleAudioCommand state cmd = state := by
  cases cmd <;> first | rfl | cases h

theorem upToDate_initial (t : TaskLoop) : UpToDate .initial [] t := by cases t <;> rfl

/-- The loop that receives a command is up to date with it. -/
theorem UpToDate.receive {ts : TaskStates} {cmds : List Command} {t : TaskLoop}
    (h : UpToDate ts cmds t) (cmd : Command) :
    UpToDate (ts.handle cmd t) (cmds ++ [cmd]) t := by
  cases t <;>
  · simp only [UpToDate, List.foldl_append, List.foldl_cons, List.foldl_nil] at h ⊢
    rw [← h]; rfl

/-- The other loops keep their states. -/
theorem upToDate_handle_ne {ts : TaskStates} {cmds : List Command} {cmd : Command}
    {t u : TaskLoop} (hne : u ≠ t) : UpToDate (ts.handle cmd t) cmds u ↔ UpToDate ts cmds u := by
  cases u <;> cases t <;> first | rfl | exact absurd rfl hne

/-- A command that a loop ignores does not count. -/
theorem upToDate_append_ignored {ts : TaskStates} {cmds : List Command} {cmd : Command}
    {u : TaskLoop} (hc : handles u cmd = false) :
    UpToDate ts (cmds ++ [cmd]) u ↔ UpToDate ts cmds u := by
  cases u <;>
    simp only [UpToDate, List.foldl_append, List.foldl_cons, List.foldl_nil,
      handleCommand_ignores, handleCameraCommand_ignores, handleAudioCommand_ignores, hc]

/-! ## Steps and runs -/

/-- What a step does to the bus: it accepts commands at its end, or a spawned
loop takes its head. -/
theorem step_cases {hw : DetectedHardware} {s s' : State} {a : Action} (h : Step hw s a s') :
    (∃ cmds, s'.sent = s.sent ++ cmds ∧ s'.bus.queue = s.bus.queue ++ cmds ∧
      s'.tasks = s.tasks) ∨
    ∃ t cmd, a = .receive t ∧ t ∈ spawned hw ∧ s.bus.queue = cmd :: s'.bus.queue ∧
      s'.sent = s.sent ∧ s'.tasks = s.tasks.handle cmd t := by
  cases h with
  | send _ hs => exact .inl ⟨_, rfl, (Channel.trySend_eq_some.mp hs).2, rfl⟩
  | suspend _ _ => exact .inl ⟨[], (List.append_nil _).symm, (List.append_nil _).symm, rfl⟩
  | resume _ hs => exact .inl ⟨_, rfl, (Channel.trySend_eq_some.mp hs).2, rfl⟩
  | receive ht hr => exact .inr ⟨_, _, rfl, ht, Channel.tryReceive_eq_some.mp hr, rfl, rfl⟩

/-- The commands sent are those received, with which every spawned loop is up
to date, and those still on the bus. -/
def Inv (hw : DetectedHardware) (s : State) : Prop :=
  ∃ received, s.sent = received ++ s.bus.queue ∧ ∀ t ∈ spawned hw, UpToDate s.tasks received t

theorem inv_initial (hw : DetectedHardware) : Inv hw initial :=
  ⟨[], rfl, fun t _ => upToDate_initial t⟩

theorem Inv.updatesKept {hw : DetectedHardware} {s : State} (h : Inv hw s) : UpdatesKept hw s := by
  obtain ⟨received, hsent, hup⟩ := h
  intro hq
  rw [hsent, hq, List.append_nil]
  exact hup

theorem Inv.step {hw : DetectedHardware} {s s' : State} {a : Action} (h : Inv hw s)
    (hr : Routed hw s a) (hs : Step hw s a s') : Inv hw s' := by
  obtain ⟨received, hsent, hup⟩ := h
  rcases step_cases hs with ⟨cmds, hs', hq, ht⟩ | ⟨t, cmd, rfl, _, hq, hs', ht⟩
  · refine ⟨received, ?_, ht ▸ hup⟩
    rw [hs', hq, hsent, List.append_assoc]
  · refine ⟨received ++ [cmd], ?_, fun u hu => ?_⟩
    · rw [hs', hsent, hq, List.append_assoc, List.singleton_append]
    · rw [ht]
      by_cases hut : u = t
      · subst hut
        exact (hup u hu).receive cmd
      · have hc := hr t cmd rfl (by rw [hq]; rfl) u hu hut
        exact (upToDate_handle_ne hut).mpr ((upToDate_append_ignored hc).mpr (hup u hu))

/-- A run in which every command received is routed keeps all updates, in each
of its states. -/
theorem always_updatesKept {hw : DetectedHardware} {h : List (State × Action)} {s : State}
    (hr : Run (system hw) h s) (ht : Took (Routed hw) h) : Always (UpdatesKept hw) h s :=
  (hr.always_took (fun _ hi => by rw [hi]; exact inv_initial hw) (fun _ _ _ => Inv.step) ht).mono
    fun _ => Inv.updatesKept

/-! ## Boards with several loops -/

/-- A loop on its own gets every command. -/
theorem routed_of_length_le_one {hw : DetectedHardware} (h1 : (spawned hw).length ≤ 1)
    {s s' : State} {a : Action} (hs : Step hw s a s') : Routed hw s a := by
  intro t cmd ha _ u hu hne
  subst ha
  cases hs with
  | receive ht hr => exact absurd (eq_of_length_le_one h1 hu ht) hne

theorem exists_two {hw : DetectedHardware} (h : ¬ (spawned hw).length ≤ 1) :
    ∃ t ∈ spawned hw, ∃ u ∈ spawned hw, u ≠ t := by
  obtain ⟨oled, camera, audio⟩ := hw
  revert h
  cases oled <;> cases camera <;> cases audio <;> decide

/-- A command that changes a loop's first state. -/
def signal : TaskLoop → Command
  | .oledTaskLoop => .setFaceExpression .happy
  | .cameraTaskLoop => .streamVideo true
  | .audioTaskLoop => .streamAudio true

/-- The other loops ignore it. -/
theorem handles_signal_ne {t u : TaskLoop} (hne : u ≠ t) : handles u (signal t) = false := by
  cases u <;> cases t <;> first | rfl | exact absurd rfl hne

theorem not_upToDate_signal (u : TaskLoop) : ¬ UpToDate .initial [signal u] u := by
  cases u <;> exact nofun

/-- Where the bus is empty, a spawned loop can take a command meant for any loop, which
is then all that has been received. -/
theorem exists_taken {hw : DetectedHardware} {s : State} (hq : s.bus.queue = [])
    (hp : s.pending .wifiTask = none) {t : TaskLoop} (ht : t ∈ spawned hw) (u : TaskLoop) :
    ∃ h s', Path (system hw) s h s' ∧
      Took (fun s a => ∀ v, a = .receive v → v = t ∧ s.bus.queue = [signal u]) h ∧
      s'.bus.queue = [] ∧ s'.pending = s.pending ∧ s'.sent = s.sent ++ [signal u] ∧
      s'.tasks = s.tasks.handle (signal u) t := by
  have hfree : ¬ s.bus.Full := by
    rw [Channel.not_full_iff, hq]
    decide
  obtain ⟨bus₁, hs⟩ := Channel.exists_trySend hfree (signal u)
  have hq₁ : bus₁.queue = [signal u] := by
    rw [(Channel.trySend_eq_some.mp hs).2, hq, List.nil_append]
  have hr : bus₁.tryReceive = some (signal u, .new) := Channel.tryReceive_eq_some.mpr hq₁
  refine ⟨_, _, .next (.next .nil (.send hp hs)) (.receive ht hr), ?_, rfl, rfl, rfl, rfl⟩
  refine took_cons.mpr ⟨fun v hv => ⟨(Action.receive.inj hv).symm, hq₁⟩, ?_⟩
  exact took_cons.mpr ⟨fun v hv => (nomatch hv), took_nil _⟩

/-- A spawned loop can take the command meant for it. -/
theorem exists_routed {hw : DetectedHardware} {s : State} (hq : s.bus.queue = [])
    (hp : s.pending .wifiTask = none) {t : TaskLoop} (ht : t ∈ spawned hw) :
    ∃ h s', Path (system hw) s h s' ∧ Took (Routed hw) h ∧ s'.bus.queue = [] ∧
      s'.pending = s.pending ∧ s'.tasks = s.tasks.handle (signal t) t := by
  obtain ⟨h, s', hpath, htook, hq', hp', -, htasks⟩ := exists_taken hq hp ht t
  refine ⟨h, s', hpath, fun e he v cmd hv hcmd u _ hne => ?_, hq', hp', htasks⟩
  obtain ⟨rfl, hqueue⟩ := htook e he v hv
  rw [hqueue, List.head?_cons, Option.some.injEq] at hcmd
  rw [← hcmd]
  exact handles_signal_ne hne

/-- Every run of a board keeps all updates exactly if it has at most one loop. -/
theorem always_updatesKept_iff (hw : DetectedHardware) :
    (∀ h s, Run (system hw) h s → Always (UpdatesKept hw) h s) ↔ (spawned hw).length ≤ 1 := by
  refine ⟨fun hkept => ?_, fun h1 h s hr => ?_⟩
  · by_contra h2
    obtain ⟨t, ht, u, hu, hne⟩ := exists_two h2
    obtain ⟨h, s, hpath, -, hq, -, hsent, htasks⟩ := exists_taken (s := initial) rfl rfl ht u
    have hup := (hkept _ s (Run.append (.start rfl) hpath)).last hq u hu
    rw [hsent, htasks, upToDate_handle_ne hne] at hup
    exact not_upToDate_signal u hup
  · exact always_updatesKept hr (hr.took fun _ _ _ => routed_of_length_le_one h1)

/-- On every board, a run whose commands are all routed keeps all updates; and
all runs keep all updates exactly if the board has at most one loop. -/
theorem updates_kept (hw : DetectedHardware) :
    (∀ h s, Run (system hw) h s → Took (Routed hw) h → Always (UpdatesKept hw) h s) ∧
    ((∀ h s, Run (system hw) h s → Always (UpdatesKept hw) h s) ↔ (spawned hw).length ≤ 1) :=
  ⟨fun _ _ => always_updatesKept, always_updatesKept_iff hw⟩

/-- With the OLED and the camera on board, a face and a switch to video, each received
by the loop that it is meant for, are shown and streamed. -/
theorem face_kept : ∃ h s, Run (system ⟨true, true, false⟩) h s ∧ s.bus.queue = [] ∧
    s.tasks.oled = .face .happy ∧ s.tasks.camera = .streaming ∧
    Always (UpdatesKept ⟨true, true, false⟩) h s := by
  have holed : TaskLoop.oledTaskLoop ∈ spawned ⟨true, true, false⟩ := by decide
  have hcamera : TaskLoop.cameraTaskLoop ∈ spawned ⟨true, true, false⟩ := by decide
  obtain ⟨h₁, s₁, hpath₁, htook₁, hq₁, hp₁, htasks₁⟩ := exists_routed (s := initial) rfl rfl holed
  obtain ⟨h₂, s₂, hpath₂, htook₂, hq₂, -, htasks₂⟩ :=
    exists_routed hq₁ (by rw [hp₁]; rfl) hcamera
  have hr : Run (system ⟨true, true, false⟩) (h₂ ++ (h₁ ++ [])) s₂ :=
    (Run.append (.start rfl) hpath₁).append hpath₂
  have htook : Took (Routed ⟨true, true, false⟩) (h₂ ++ (h₁ ++ [])) :=
    took_append.mpr ⟨htook₂, took_append.mpr ⟨htook₁, took_nil _⟩⟩
  refine ⟨_, s₂, hr, hq₂, by rw [htasks₂, htasks₁]; rfl, by rw [htasks₂]; rfl, ?_⟩
  exact (updates_kept _).1 _ s₂ hr htook

/-- With the OLED and the camera on board, `camera_task_loop` takes the face
sent to the OLED and ignores it. -/
theorem face_lost : ∃ h s, Run (system ⟨true, true, false⟩) h s ∧
    s.sent = [.setFaceExpression .happy] ∧ s.bus.queue = [] ∧ s.tasks.oled = .blank ∧
    ¬ UpdatesKept ⟨true, true, false⟩ s := by
  have hcamera : TaskLoop.cameraTaskLoop ∈ spawned ⟨true, true, false⟩ := by decide
  obtain ⟨h, s, hpath, -, hq, -, hsent, htasks⟩ :=
    exists_taken (s := initial) rfl rfl hcamera .oledTaskLoop
  refine ⟨_, s, Run.append (.start rfl) hpath, hsent, hq, by rw [htasks]; rfl, fun hkept => ?_⟩
  have hup := hkept hq .oledTaskLoop (by decide)
  rw [hsent, htasks, upToDate_handle_ne (by decide)] at hup
  exact not_upToDate_signal _ hup

end SrkOS.Proof.Bus
