import SrkOS.Impl.BusSystem

/-!
# Draining the command bus

A producer that is suspended on a full bus waits for a task loop to receive,
and `main` spawns a task loop only for a device that acknowledged its probe. On
a board where at least one did, a full bus can always be drained and every
suspended producer released (`release`); on a bare board nothing receives, and
eight commands fill the bus for good (`exists_full`). So the bus can be drained
in every run exactly if a probe was acknowledged (`drainable_iff`).
-/

namespace SrkOS.Proof.Bus

open Framework SrkOS.Impl SrkOS.Impl.Bus

/-- Whether each of the boot-time probes was acknowledged, on the bus as the
probes before it left it. -/
def probeAnswers {σ ε : Type} (i2c : I2c σ ε) (s : σ) : List Bool :=
  let r₁ := i2c.read s SSD1306_ADDR [0]
  let r₂ := i2c.read r₁.2.2 CAMERA_SCCB_ADDR [0]
  let r₃ := i2c.read r₂.2.2 AUDIO_CODEC_ADDR [0]
  [r₁.1.isOk, r₂.1.isOk, r₃.1.isOk]

/-- In every run on the hardware `hw`: whenever the bus is full, a spawned loop
can receive from it; and a suspended producer can always be released, the bus
accepting its command. -/
def Drainable (hw : DetectedHardware) : Prop :=
  (∀ h s, Run (system hw) h s → s.bus.Full →
    ∃ t ∈ spawned hw, ∃ s', Step hw s (.receive t) s') ∧
  ∀ h s p cmd, Run (system hw) h s → s.pending p = some cmd →
    ∃ h' s', Path (system hw) s h' s' ∧ s'.pending p = none ∧ s'.sent = s.sent ++ [cmd]

/-! ## Boards with a task loop -/

theorem spawned_ne_nil_iff {σ ε : Type} (i2c : I2c σ ε) (s : σ) :
    spawned (probeHardware i2c s).1 ≠ [] ↔ true ∈ probeAnswers i2c s := by
  have he : (probeHardware i2c s).1 = ⟨(probeAnswers i2c s)[0]!, (probeAnswers i2c s)[1]!,
    (probeAnswers i2c s)[2]!⟩ := rfl
  have hboards : ∀ b₁ b₂ b₃ : Bool, spawned ⟨b₁, b₂, b₃⟩ ≠ [] ↔ true ∈ [b₁, b₂, b₃] := by decide
  rw [he]
  exact hboards _ _ _

variable {hw : DetectedHardware} {s : State}

theorem full_ne_nil (hf : s.bus.Full) : s.bus.queue ≠ [] := by
  intro hq
  have hlen : s.bus.queue.length = BUS_CAPACITY := hf
  simp [hq, BUS_CAPACITY] at hlen

/-- A spawned loop can receive from a bus that is not empty. -/
theorem exists_receive {t : TaskLoop} (ht : t ∈ spawned hw) (hq : s.bus.queue ≠ []) :
    ∃ s', Step hw s (.receive t) s' ∧ s'.pending = s.pending ∧ s'.sent = s.sent ∧
      ¬ s'.bus.Full := by
  obtain ⟨cmd, bus', hr⟩ := Channel.exists_tryReceive hq
  exact ⟨_, .receive ht hr, rfl, rfl, Channel.not_full_of_tryReceive hr⟩

/-- A suspended producer can go on once the bus is not full. -/
theorem exists_resume (hw : DetectedHardware) {p : Producer} {cmd : Command}
    (hp : s.pending p = some cmd) (hf : ¬ s.bus.Full) :
    ∃ s', Step hw s (.resume p) s' ∧ s'.pending p = none ∧ s'.sent = s.sent ++ [cmd] := by
  obtain ⟨bus', hs⟩ := Channel.exists_trySend hf cmd
  exact ⟨_, .resume hp hs, Function.update_self .., rfl⟩

/-- With a loop spawned, a suspended producer can be released: a loop receives
if the bus is full, then the producer goes on. -/
theorem release {t : TaskLoop} (ht : t ∈ spawned hw) {p : Producer} {cmd : Command}
    (hp : s.pending p = some cmd) :
    ∃ h' s', Path (system hw) s h' s' ∧ s'.pending p = none ∧ s'.sent = s.sent ++ [cmd] := by
  by_cases hf : s.bus.Full
  · obtain ⟨s₁, hs₁, hp₁, hsent₁, hf₁⟩ := exists_receive ht (full_ne_nil hf)
    obtain ⟨s₂, hs₂, hp₂, hsent₂⟩ := exists_resume hw (by rw [hp₁]; exact hp) hf₁
    refine ⟨_, s₂, .next (.next .nil hs₁) hs₂, hp₂, ?_⟩
    rw [hsent₂, hsent₁]
  · obtain ⟨s₁, hs₁, hp₁, hsent₁⟩ := exists_resume hw hp hf
    exact ⟨_, s₁, .next .nil hs₁, hp₁, hsent₁⟩

theorem drainable_of_spawned {t : TaskLoop} (ht : t ∈ spawned hw) : Drainable hw := by
  refine ⟨fun h s _ hf => ?_, fun _ _ _ _ _ hp => release ht hp⟩
  obtain ⟨s', hs, -⟩ := exists_receive ht (full_ne_nil hf)
  exact ⟨t, ht, s', hs⟩

/-! ## The bare board -/

/-- A producer can send until the bus is full. -/
theorem exists_sent (hw : DetectedHardware) (p : Producer) (cmd : Command) :
    ∀ n ≤ BUS_CAPACITY, ∃ h s, Run (system hw) h s ∧ s.pending p = none ∧ s.bus.queue.length = n
  | 0, _ => ⟨[], initial, .start rfl, rfl, rfl⟩
  | n + 1, hn => by
    obtain ⟨h, s, hr, hp, hq⟩ := exists_sent hw p cmd n (by omega)
    have hf : ¬ s.bus.Full := by rw [Channel.not_full_iff]; omega
    obtain ⟨bus', hs⟩ := Channel.exists_trySend hf cmd
    have hq' : bus'.queue = s.bus.queue ++ [cmd] := (Channel.trySend_eq_some.mp hs).2
    refine ⟨_, _, .next hr (.send hp hs), hp, ?_⟩
    simp only [hq', List.length_append, hq, List.length_singleton]

/-- Some run fills the bus. -/
theorem exists_full (hw : DetectedHardware) : ∃ h s, Run (system hw) h s ∧ s.bus.Full := by
  obtain ⟨h, s, hr, -, hq⟩ := exists_sent hw .wifiTask (.streamAudio true) BUS_CAPACITY (Nat.le_refl _)
  exact ⟨h, s, hr, hq⟩

/-- A full bus that nothing receives from stays full, and a producer suspended
on it stays suspended. -/
def Stuck (p : Producer) (s : State) : Prop := s.bus.Full ∧ s.pending p ≠ none

theorem Stuck.step (hw0 : spawned hw = []) {p : Producer} {s s' : State} {a : Action}
    (h : Stuck p s) (hs : Step hw s a s') : Stuck p s' := by
  obtain ⟨hf, hp⟩ := h
  cases hs with
  | send _ hs => exact absurd hf (Channel.trySend_eq_some.mp hs).1
  | @suspend q cmd hq _ =>
    refine ⟨hf, ?_⟩
    have hne : p ≠ q := fun he => hp (he ▸ hq)
    simpa only [Function.update_of_ne hne] using hp
  | resume _ hs => exact absurd hf (Channel.trySend_eq_some.mp hs).1
  | receive ht _ => simp [hw0] at ht

theorem Drainable.exists_spawned (hd : Drainable hw) : spawned hw ≠ [] := by
  obtain ⟨h, s, hr, hf⟩ := exists_full hw
  obtain ⟨t, ht, -⟩ := hd.1 h s hr hf
  exact List.ne_nil_of_mem ht

/-- For every I2C bus, the command bus of the system `main` boots into can be
drained in every run exactly if a probe was acknowledged. -/
theorem drainable_iff {σ ε : Type} (i2c : I2c σ ε) (s : σ) :
    Drainable (probeHardware i2c s).1 ↔ true ∈ probeAnswers i2c s := by
  rw [← spawned_ne_nil_iff]
  refine ⟨Drainable.exists_spawned, fun hne => ?_⟩
  obtain ⟨t, ht⟩ := List.exists_mem_of_ne_nil _ hne
  exact drainable_of_spawned ht

/-- The I2C bus of a bare board: no read is acknowledged. -/
def alwaysErrI2c : I2c Unit Unit := ⟨fun s _ buf => (.error (), buf, s)⟩

/-- On a bare board, `wifi_task` is suspended with its ninth command and never
goes on. -/
theorem bare_board_stuck :
    (probeHardware alwaysErrI2c ()).1 = ⟨false, false, false⟩ ∧
    spawned ⟨false, false, false⟩ = [] ∧
    ∃ h s, Run (system ⟨false, false, false⟩) h s ∧ s.bus.Full ∧
      ∀ h' s', Path (system ⟨false, false, false⟩) s h' s' →
        s'.bus.Full ∧ s'.pending .wifiTask ≠ none := by
  obtain ⟨h, s, hr, hp, hf⟩ :=
    exists_sent ⟨false, false, false⟩ .wifiTask (.streamAudio true) BUS_CAPACITY (Nat.le_refl _)
  have hs : Step ⟨false, false, false⟩ s (.send .wifiTask (.streamAudio true)) _ :=
    .suspend hp (Channel.trySend_eq_none.mpr hf)
  refine ⟨rfl, rfl, _, _, hr.next hs, hf, fun h' s' hp' => ?_⟩
  refine hp'.keep (P := Stuck .wifiTask) (fun _ _ _ => Stuck.step rfl) ⟨hf, ?_⟩
  simp only [Function.update_self, ne_eq, reduceCtorEq, not_false_eq_true]

end SrkOS.Proof.Bus
