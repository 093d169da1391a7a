import SrkOS.Impl.IngressSystem
import SrkOS.Proof.Bus.Updates
import SrkOS.Proof.Http.Ingress

/-!
# Servo angles

Every command on the bus was sent by a task (`run_sent`), and the tasks send
what `api_command_to_command` lets through. So no bytes, over HTTP or ESP-NOW,
and no JSON decoder move a servo out of its range: `servo_in_range`. The bus is
run as in `SrkOS.Impl.Bus` (`exists_busRun`), so that what holds of it there
holds with the two ways in to it.
-/

namespace SrkOS.Proof.Ingress

open Framework SrkOS.Impl SrkOS.Impl.Ingress SrkOS.Proof.Http

/-- The servo commands on the bus, and those ever received from it, are in
range. -/
structure ServoSafe (s : State) : Prop where
  queue : ∀ id angle, .moveServo id angle ∈ s.sys.bus.queue → angle.toNat ≤ 180
  delivered : ∀ t id angle, (t, .moveServo id angle) ∈ s.delivered → angle.toNat ≤ 180

/-! ## The bus -/

/-- What the step sends, if anything, meets `P`. -/
def Sends (P : Command → Prop) (_ : Bus.State) (a : Bus.Action) : Prop :=
  ∀ p cmd, a = .send p cmd → P cmd

/-- The commands sent, and those the tasks are suspended with, meet `P`. -/
structure AllSent (P : Command → Prop) (s : Bus.State) : Prop where
  sent : ∀ cmd ∈ s.sent, P cmd
  pending : ∀ p cmd, s.pending p = some cmd → P cmd

section

variable {hw : DetectedHardware} {P : Command → Prop}

theorem AllSent.step {s s' : Bus.State} {a : Bus.Action} (h : AllSent P s) (ha : Sends P s a)
    (hs : Bus.Step hw s a s') : AllSent P s' := by
  have hsend : ∀ cmd, P cmd → ∀ c ∈ s.sent ++ [cmd], P c := fun cmd hc =>
    List.forall_mem_append.mpr ⟨h.sent, List.forall_mem_singleton.mpr hc⟩
  cases hs with
  | send hp hs => exact ⟨hsend _ (ha _ _ rfl), h.pending⟩
  | suspend hp hs =>
    refine ⟨h.sent, forall_update h.pending _ fun cmd hc => ?_⟩
    rw [← Option.some.inj hc]
    exact ha _ _ rfl
  | resume hp hs =>
    exact ⟨hsend _ (h.pending _ _ hp), forall_update h.pending _ (by simp)⟩
  | receive ht hr => exact ⟨h.sent, h.pending⟩

/-- What all commands sent meet, all commands that ever were on the bus do. -/
theorem run_sent {h : List (Bus.State × Bus.Action)} {s : Bus.State} (hr : Run (Bus.system hw) h s)
    (ht : Took (Sends P) h) : AllSent P s :=
  (hr.always_took (fun _ hi => by rw [hi]; exact ⟨nofun, nofun⟩) (fun _ _ _ => AllSent.step) ht).last

end

/-! ## The system -/

section

variable {fromSlice : List UInt8 → Option ApiCommand} {hw : DetectedHardware} {s s' : State}
  {a : Action}

/-- What a step does: nothing, or what the bus does, sending only commands in
range. -/
theorem step_cases (h : Step fromSlice hw s a s') :
    s' = s ∨ ∃ b, Bus.Step hw s.sys b s'.sys ∧ Sends InRange s.sys b := by
  cases h with
  | httpAccepted hc hs =>
    refine .inr ⟨_, hs, fun p cmd he => ?_⟩
    cases he
    exact handleRequest_inRange hc
  | httpOther | espnowDiscarded => exact .inl rfl
  | espnowAccepted hc hs =>
    refine .inr ⟨_, hs, fun p cmd he => ?_⟩
    cases he
    exact parseEspnowPayload_inRange hc
  | resume hs => exact .inr ⟨_, hs, nofun⟩
  | receive hq hs => exact .inr ⟨_, hs, nofun⟩

/-- The bus is run as it is without what comes in. -/
theorem exists_busRun {h : List (State × Action)} (hr : Run (system fromSlice hw) h s) :
    ∃ h', Run (Bus.system hw) h' s.sys ∧ Took (Sends InRange) h' := by
  induction hr with
  | start hi =>
    rw [hi]
    exact ⟨[], .start rfl, took_nil _⟩
  | next _ hs ih =>
    obtain ⟨h', hr', ht⟩ := ih
    rcases step_cases hs with rfl | ⟨b, hb, hsend⟩
    · exact ⟨h', hr', ht⟩
    · exact ⟨_, hr'.next hb, took_cons.mpr ⟨hsend, ht⟩⟩

/-- The commands sent are those received and those still on the bus. -/
def Conserved (s : State) : Prop := s.sys.sent = s.delivered.map Prod.snd ++ s.sys.bus.queue

theorem Conserved.accept {b : Bus.Action} {sys' : Bus.State} (h : Conserved s)
    (hs : Bus.Step hw s.sys b sys') (hb : ∀ t, b ≠ .receive t) :
    Conserved { s with sys := sys' } := by
  rcases Bus.step_cases hs with ⟨cmds, hsent, hq, -⟩ | ⟨t, -, rfl, -⟩
  · have hc : s.sys.sent = s.delivered.map Prod.snd ++ s.sys.bus.queue := h
    simp only [Conserved, hsent, hq, hc, List.append_assoc]
  · exact absurd rfl (hb t)

theorem Conserved.step (h : Conserved s) (hs : Step fromSlice hw s a s') : Conserved s' := by
  cases hs with
  | httpAccepted _ hs | espnowAccepted _ hs | resume hs => exact h.accept hs (by simp)
  | httpOther | espnowDiscarded => exact h
  | receive hq hs =>
    cases hs with
    | receive _ hr =>
      have hc : s.sys.sent = s.delivered.map Prod.snd ++ s.sys.bus.queue := h
      have hq' := Channel.tryReceive_eq_some.mp hr
      rw [hq', List.head?_cons, Option.some.injEq] at hq
      simp only [Conserved, hc, hq', hq, List.map_append, List.map_cons, List.map_nil,
        List.append_assoc, List.singleton_append]

end

/-- For every JSON decoder and on every board: in every state of every run, whatever
comes in, the servo commands on the bus and those received from it are in range. -/
theorem servo_in_range (fromSlice : List UInt8 → Option ApiCommand) (hw : DetectedHardware)
    {h : List (State × Action)} {s : State} (hr : Run (system fromSlice hw) h s) :
    ServoSafe s := by
  have hc : s.sys.sent = s.delivered.map Prod.snd ++ s.sys.bus.queue :=
    hr.invariant (P := Conserved) (fun _ hi => by rw [hi]; rfl) fun _ _ _ => Conserved.step
  obtain ⟨h', hr', ht⟩ := exists_busRun hr
  have hsent : ∀ cmd ∈ s.sys.sent, InRange cmd := (run_sent hr' ht).sent
  rw [hc] at hsent
  refine ⟨fun id angle hm => ?_, fun t id angle hm => ?_⟩
  · exact hsent _ (List.mem_append_right _ hm)
  · exact hsent _ (List.mem_append_left _ (List.mem_map_of_mem hm))

/-- A decoder that makes a servo command of everything. -/
def wildDecoder (data : List UInt8) : Option ApiCommand :=
  some (.moveServo (0, if data = [] then 90 else 65535))

/-- A frame that asks for 65535° is discarded, and a request that asks for 90°
delivered. -/
theorem wild_servo : ∃ h s, Run (system wildDecoder ⟨true, false, false⟩) h s ∧
    h.map Prod.snd =
      [.receive .oledTaskLoop, .http (CommandPost.plain "").bytes, .espnow [0xFF]] ∧
    s.delivered = [(.oledTaskLoop, .moveServo 0 90)] ∧ ServoSafe s := by
  have hd : Step wildDecoder ⟨true, false, false⟩ initial (.espnow [0xFF]) initial :=
    .espnowDiscarded rfl rfl
  have hc : handleRequest wildDecoder (CommandPost.plain "").bytes =
      .ok (some (.commandAccepted (.moveServo 0 90))) := handleRequest_commandPost _
  have h₁ : Run (system wildDecoder ⟨true, false, false⟩) _ initial := .next (.start rfl) hd
  have h₂ := h₁.next (.httpAccepted hc (.send rfl rfl))
  have h₃ := h₂.next (.receive rfl (.receive (t := .oledTaskLoop) (by decide) rfl))
  exact ⟨_, _, h₃, rfl, rfl, servo_in_range _ _ h₃⟩

end SrkOS.Proof.Ingress
