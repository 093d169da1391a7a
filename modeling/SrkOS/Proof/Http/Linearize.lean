import SrkOS.Framework.Semaphore
import SrkOS.Framework.Simulation
import SrkOS.Proof.Http.Retries

/-!
# `ConnectionGuard` is a semaphore

`try_acquire` takes several steps, and its result is out of date when it returns.
But each call takes effect at one of its steps (`effect`): a successful one at its
exchange; a refused one where it last read the counter, at its load or at a failed
exchange, and not where it returns, since guards may have been dropped meanwhile.
In the order of these steps, the calls and drops of a run are those of a semaphore
with `MAX_CONNECTIONS` permits, with the same results (`linearizable`).
-/

namespace SrkOS.Proof.Connection

open Framework SrkOS.Impl SrkOS.Impl.Connection

variable {η : Type}

/-- The operation on the semaphore that takes effect at a step. -/
def effect (s : State η) : Action η → Option (Semaphore.Action η)
  | .load i | .retry i => if s.active < MAX_CONNECTIONS then none else some (.refuse i)
  | .exchange i => some (.take i)
  | .reject _ => none
  | .drop i => some (.release i)

/-- The results of the calls of a handler that have taken effect. -/
def resultsOf : Handler → List Bool
  | .idle => []
  | .acquiring prev => if prev < MAX_CONNECTIONS then [] else [false]
  | .serving | .closed => [true]
  | .rejected => [false]

/-- The permits are those of the handlers with a guard. -/
structure Related (s : State η) (held : Finset η) : Prop where
  inv : Inv s
  held : ∀ i, i ∈ held ↔ s.handler i = .serving

theorem Related.card {s : State η} {held : Finset η} (h : Related s held) : held.card = s.active := by
  obtain ⟨live, hlive, hcard⟩ := h.inv.live
  have heq : held = live := Finset.ext fun i => (h.held i).trans (hlive i).symm
  rw [heq, hcard]

section

variable [DecidableEq η] [Usize] {s s' : State η} {a : Action η} {held : Finset η}

omit [Usize] in
/-- A handler that had no guard and gets none. -/
theorem Related.held_goto (h : Related s held) {i : η} {handler : Handler}
    (hi : s.handler i ≠ .serving) (hh : handler ≠ .serving) (j : η) :
    j ∈ held ↔ (s.goto i handler).handler j = .serving := by
  rw [goto_serving_iff, h.held j]
  refine ⟨fun hj => .inr ⟨fun he => hi (he ▸ hj), hj⟩, fun hj => ?_⟩
  rcases hj with ⟨-, hs⟩ | ⟨-, hj⟩
  · exact absurd hs hh
  · exact hj

omit [Usize] in
/-- A handler that reads the counter is refused at once if the limit is reached. -/
theorem Related.read (h : Related s held) {i : η} (hi : s.handler i ≠ .serving)
    (hs : Inv (s.goto i (.acquiring s.active))) :
    ∃ held', Moves (Semaphore.system MAX_CONNECTIONS η) held
        (if s.active < MAX_CONNECTIONS then none else some (.refuse i)) held' ∧
      Related (s.goto i (.acquiring s.active)) held' := by
  refine ⟨held, ?_, hs, h.held_goto hi nofun⟩
  by_cases hlt : s.active < MAX_CONNECTIONS
  · rw [if_pos hlt]
    exact rfl
  · have hnot : i ∉ held := fun hm => hi ((h.held i).mp hm)
    rw [if_neg hlt]
    exact Semaphore.Step.refuse hnot (by rw [h.card]; omega)

theorem Related.step (h : Related s held) (hs : Step s a s') :
    ∃ held', Moves (Semaphore.system MAX_CONNECTIONS η) held (effect s a) held' ∧
      Related s' held' := by
  have hinv := h.inv.step hs
  cases hs with
  | load hi => exact h.read (by simp [hi]) hinv
  | @exchange i prev next hi hu ha =>
    obtain ⟨-, hlt⟩ := tryAcquireUpdate_some (h.inv.read i prev hi) hu
    have hnot : i ∉ held := fun hm => by simp [(h.held i).mp hm] at hi
    refine ⟨insert i held, Semaphore.Step.take hnot (by rw [h.card, ha]; exact hlt), hinv, ?_⟩
    intro j
    show j ∈ insert i held ↔ (s.goto i .serving).handler j = .serving
    rw [goto_serving_iff, Finset.mem_insert, h.held j]
    by_cases hj : j = i
    · simp [hj]
    · simp [hj]
  | retry hi hu => exact h.read (by simp [hi]) hinv
  | reject hi hu => exact ⟨held, rfl, hinv, h.held_goto (by simp [hi]) nofun⟩
  | @drop i hi =>
    refine ⟨held.erase i, Semaphore.Step.release ((h.held i).mpr hi), hinv, ?_⟩
    intro j
    show j ∈ held.erase i ↔ (s.goto i .closed).handler j = .serving
    rw [goto_serving_iff, Finset.mem_erase, h.held j]
    simp

/-- The handlers are parties of a semaphore. -/
def simulation : Simulation (system η) (Semaphore.system MAX_CONNECTIONS η) where
  rel := Related
  act := effect
  init s hi := by
    have hs : s = initial η := hi
    subst hs
    exact ⟨∅, rfl, inv_initial η, fun i => by simp [initial]⟩
  step _ _ _ _ h hs := h.step hs

/-! ## Results -/

omit [Usize] in
/-- What takes effect at a step is an operation of the handler that takes it. -/
theorem answers_of_ne (s : State η) {i : η} (hi : i ≠ actor a) :
    Semaphore.answers i (effect s a).toList = [] := by
  cases a with
  | load j | retry j =>
    have hne : j ≠ i := Ne.symm hi
    by_cases hlt : s.active < MAX_CONNECTIONS <;> simp [effect, hlt, hne]
  | exchange j =>
    have hne : j ≠ i := Ne.symm hi
    simp [effect, hne]
  | reject j | drop j => simp [effect]

/-- A call takes effect at the step that fixes its result. -/
theorem resultsOf_step (hi : Inv s) (hs : Step s a s') (i : η) :
    resultsOf (s'.handler i) =
      resultsOf (s.handler i) ++ Semaphore.answers i (effect s a).toList := by
  by_cases hia : i = actor a
  · subst hia
    cases hs with
    | @load j hj =>
      by_cases hlt : s.active < MAX_CONNECTIONS <;>
        simp [actor, State.goto, effect, resultsOf, hj, hlt]
    | @exchange j prev next hj hu ha =>
      obtain ⟨-, hprev⟩ := tryAcquireUpdate_some (hi.read j prev hj) hu
      simp [actor, State.goto, effect, resultsOf, hj, hprev]
    | @retry j prev next hj hu =>
      obtain ⟨-, hprev⟩ := tryAcquireUpdate_some (hi.read j prev hj) hu
      by_cases hlt : s.active < MAX_CONNECTIONS <;>
        simp [actor, State.goto, effect, resultsOf, hj, hlt, hprev]
    | @reject j prev hj hu =>
      have hprev := tryAcquireUpdate_none (hi.read j prev hj) hu
      simp [actor, State.goto, effect, resultsOf, hj, hprev]
    | @drop j hj => simp [actor, State.goto, effect, resultsOf, hj]
  · rw [handler_of_ne hs hia, answers_of_ne s hia, List.append_nil]

theorem run_results {h : List (State η × Action η)} (hr : Run (system η) h s) (i : η) :
    Semaphore.answers i (trace effect h) = resultsOf (s.handler i) := by
  induction hr with
  | @start s h0 =>
    have hs : s = initial η := h0
    rw [hs]
    rfl
  | next hr hs ih =>
    rw [trace_cons, Semaphore.answers_append, ih, resultsOf_step (always_inv hr).last hs]

/-- In every run of any number of handlers: the calls of `try_acquire` and the drops, in
the order in which they take effect, are operations of a semaphore with
`MAX_CONNECTIONS` permits, which the handlers with a guard hold; and each handler has
got the result of its call from it. A call that has not begun has not taken effect,
and one that has returned has once, so that each does between the two. -/
theorem linearizable {h : List (State η × Action η)} (hr : Run (system η) h s) :
    ∃ h' held, Run (Semaphore.system MAX_CONNECTIONS η) h' held ∧
      (h'.map Prod.snd).reverse = trace effect h ∧
      (∀ i, i ∈ held ↔ s.handler i = .serving) ∧
      ∀ i, Semaphore.answers i (trace effect h) = resultsOf (s.handler i) := by
  obtain ⟨h', held, hr', hacts, hrel⟩ := simulation.run hr
  exact ⟨h', held, hr', hacts, hrel.held, run_results hr⟩

end

/-- Two handlers drop their guards before the third one, refused on what it has read,
returns. -/
theorem refused_late : ∃ h s, Run (@system (Fin 3) _ esp32) h s ∧ s.handler 2 = .rejected ∧
    trace effect h = [.take 0, .take 1, .refuse 2, .release 0, .release 1] ∧
    ∃ h' held, Run (Semaphore.system 2 (Fin 3)) h' held ∧
      (h'.map Prod.snd).reverse = trace effect h := by
  let _ := esp32
  have h₀ : Run (system (Fin 3)) _ _ := .next (.start rfl) (.load (i := 0) rfl)
  have h₁ := h₀.next (.exchange (i := 0) rfl rfl rfl)
  have h₂ := (h₁.next (.load (i := 1) rfl)).next (.exchange (i := 1) rfl rfl rfl)
  have h₃ := (h₂.next (.load (i := 2) rfl)).next (.drop (i := 0) rfl)
  have h₄ := (h₃.next (.drop (i := 1) rfl)).next (.reject (i := 2) rfl rfl)
  obtain ⟨h', held, hr', hacts, -, -⟩ := linearizable h₄
  exact ⟨_, _, h₄, rfl, rfl, h', held, hr', hacts⟩

end SrkOS.Proof.Connection
