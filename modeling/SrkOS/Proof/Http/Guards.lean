import SrkOS.Impl.ConnectionClient
import SrkOS.Proof.Http.Connections

/-!
# Forged guards

As long as a module gets its guards from `try_acquire`, `ACTIVE_CONNECTIONS` is
the number of guards it holds. A guard that it writes itself is not counted when
it is made, yet its drop counts down: `sound_iff`. Two such guards, dropped, wrap
the counter, and `try_acquire` refuses every connection from then on
(`counter_wraps`).
-/

namespace SrkOS.Proof.Client

open Framework SrkOS.Impl SrkOS.Impl.Client SrkOS.Proof.Connection

/-- The counter covers the guards held, within the limit: dropping a guard does
not wrap it, and `try_acquire` refuses only while some guard is held. -/
structure Sound [Usize] (s : State) : Prop where
  guards_le : s.guards ≤ s.active
  active_le : s.active ≤ MAX_CONNECTIONS
  drop : s.guards ≠ 0 → ConnectionGuard.drop s.active + 1 = s.active
  refused : ConnectionGuard.tryAcquireUpdate s.active = .ok none → s.guards ≠ 0

/-- The step does not write a guard. -/
def NoConstruct (_ : State) (a : Action) : Prop := a ≠ .construct

/-- The counter is the number of guards held, within the limit. -/
structure Inv (s : State) : Prop where
  counted : s.guards = s.active
  le : s.active ≤ MAX_CONNECTIONS

section

variable [Usize] {s s' : State} {a : Action}

theorem Inv.sound (h : Inv s) : Sound s where
  guards_le := Nat.le_of_eq h.counted
  active_le := h.le
  drop hg := by
    have hpos : 1 ≤ s.active := by rw [← h.counted]; omega
    rw [drop_eq hpos h.le]
    omega
  refused hu := by
    have hmax := tryAcquireUpdate_none h.le hu
    rw [h.counted, hmax, MAX_CONNECTIONS]
    omega

theorem Inv.step (h : Inv s) (hn : NoConstruct s a) (hs : Step s a s') : Inv s' := by
  obtain ⟨hc, hle⟩ := h
  cases hs with
  | @acquired next hu =>
    obtain ⟨rfl, hlt⟩ := tryAcquireUpdate_some hle hu
    exact ⟨by simp only [hc], hlt⟩
  | refused hu => exact ⟨hc, hle⟩
  | construct => exact absurd rfl hn
  | drop hg =>
    have hpos : 1 ≤ s.active := by omega
    refine ⟨?_, ?_⟩
    · simp only [drop_eq hpos hle, hc]
    · simp only [drop_eq hpos hle]
      omega

/-- A guard written is one more than the counter says. -/
theorem Inv.noConstruct (h : Inv s) (hs : Step s a s') (hp : Sound s') : NoConstruct s a := by
  intro ha
  subst ha
  cases hs with
  | construct =>
    have hle : s.guards + 1 ≤ s.active := hp.guards_le
    have hc := h.counted
    omega

/-- For every sequence of operations, the counter covers the guards throughout
exactly if no guard is written. -/
theorem sound_iff {h : List (State × Action)} (hr : Run system h s) :
    Always Sound h s ↔ Took NoConstruct h :=
  hr.always_iff_took_of (I := Inv) (fun _ hi => by rw [hi]; exact ⟨rfl, Nat.zero_le _⟩)
    (fun _ _ _ => Inv.step) (fun _ => Inv.sound) fun _ _ _ => Inv.noConstruct

end

/-- A guard acquired and dropped. -/
theorem guard_dropped : ∃ h s, Run (@system esp32) h s ∧
    h.map Prod.snd = [.drop, .tryAcquire] ∧ Always (@Sound esp32) h s := by
  let _ := esp32
  have h₁ : Run system _ ⟨1, 1⟩ := .next (.start rfl) (.acquired rfl)
  have h₂ := h₁.next (.drop (by decide))
  refine ⟨_, _, h₂, rfl, (sound_iff h₂).mpr ?_⟩
  exact took_cons.mpr ⟨nofun, took_cons.mpr ⟨nofun, took_nil _⟩⟩

/-- Two guards written and dropped: no guard is held, and `try_acquire` refuses. -/
theorem counter_wraps : ∃ h s, Run (@system esp32) h s ∧
    h.map Prod.snd = [.drop, .construct, .drop, .construct] ∧
    s.active = 2 ^ 32 - 2 ∧ s.guards = 0 ∧
    @ConnectionGuard.tryAcquireUpdate esp32 s.active = .ok none ∧
    ¬ Always (@Sound esp32) h s := by
  let _ := esp32
  have h₁ : Run system _ ⟨0, 1⟩ := .next (.start rfl) (.construct initial)
  have h₂ := h₁.next (.drop (by decide))
  have h₃ := h₂.next (.construct _)
  have h₄ := h₃.next (.drop (by decide))
  refine ⟨_, _, h₄, rfl, by decide, rfl, by decide, fun ha => ?_⟩
  exact ha.last.refused (by decide) rfl

end SrkOS.Proof.Client
