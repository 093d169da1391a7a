import Mathlib.Data.Finset.Card
import SrkOS.Impl.ConnectionSystem
import SrkOS.Impl.Hardware

/-!
# The connection limit

`ACTIVE_CONNECTIONS` is the number of live guards, at most `MAX_CONNECTIONS`
(`Inv`). A stale value that a handler has read cannot be exchanged, so an
exchange adds its guard to a counter below the limit. A handler is rejected on a
value it has read, which was the counter's at some moment of its call, when
that many guards were live (`sometime_full`).
-/

namespace SrkOS.Proof.Connection

open Framework SrkOS.Impl SrkOS.Impl.Connection

variable {η : Type} {s s' : State η}

/-- The number of guards obtained and not yet dropped. -/
def Live (s : State η) (n : Nat) : Prop :=
  ∃ live : Finset η, (∀ i, i ∈ live ↔ s.handler i = .serving) ∧ live.card = n

/-- The value that a handler has read in `try_acquire`. -/
def readBy : Handler → Option Nat
  | .acquiring prev => some prev
  | _ => none

theorem readBy_eq_some {handler : Handler} {prev : Nat} :
    readBy handler = some prev ↔ handler = .acquiring prev := by
  unfold readBy
  cases handler <;> simp only [reduceCtorEq, Option.some.injEq, Handler.acquiring.injEq]

structure Inv (s : State η) : Prop where
  live : Live s s.active
  le : s.active ≤ MAX_CONNECTIONS
  read : ∀ i prev, s.handler i = .acquiring prev → prev ≤ MAX_CONNECTIONS

/-! ## The code -/

section

variable [Usize]

theorem tryAcquireUpdate_ok {n : Nat} (h : n ≤ MAX_CONNECTIONS) :
    ConnectionGuard.tryAcquireUpdate n =
      .ok (if n < MAX_CONNECTIONS then some (n + 1) else none) := by
  have hadd : usizeAdd n 1 = .ok (n + 1) :=
    usizeAdd_ok (by simp only [MAX_CONNECTIONS] at h; omega)
  simp only [ConnectionGuard.tryAcquireUpdate, hadd, bind, Except.bind, pure, Except.pure]

theorem tryAcquireUpdate_some {n next : Nat} (h : n ≤ MAX_CONNECTIONS)
    (hu : ConnectionGuard.tryAcquireUpdate n = .ok (some next)) :
    next = n + 1 ∧ n < MAX_CONNECTIONS := by
  rw [tryAcquireUpdate_ok h] at hu
  by_cases hlt : n < MAX_CONNECTIONS
  · rw [if_pos hlt, Except.ok.injEq, Option.some.injEq] at hu
    exact ⟨hu.symm, hlt⟩
  · simp [hlt] at hu

theorem tryAcquireUpdate_none {n : Nat} (h : n ≤ MAX_CONNECTIONS)
    (hu : ConnectionGuard.tryAcquireUpdate n = .ok none) : n = MAX_CONNECTIONS := by
  rw [tryAcquireUpdate_ok h] at hu
  by_cases hlt : n < MAX_CONNECTIONS
  · simp [hlt] at hu
  · omega

theorem drop_eq {n : Nat} (h1 : 1 ≤ n) (h : n ≤ MAX_CONNECTIONS) :
    ConnectionGuard.drop n = n - 1 :=
  usizeWrappingSub_of_le h1 (Usize.lt_pow (by simp only [MAX_CONNECTIONS] at h; omega))

end

/-! ## Live guards -/

theorem Live.pos {i : η} {n : Nat} (hl : Live s n) (hi : s.handler i = .serving) : 1 ≤ n := by
  obtain ⟨live, hlive, rfl⟩ := hl
  exact Finset.card_pos.mpr ⟨i, (hlive i).mpr hi⟩

theorem Live.eq_zero {n : Nat} (hl : Live s n) (h : ∀ i, s.handler i ≠ .serving) : n = 0 := by
  obtain ⟨live, hlive, rfl⟩ := hl
  exact Finset.card_eq_zero.mpr (Finset.eq_empty_of_forall_notMem fun i hi =>
    h i ((hlive i).mp hi))

section

variable [DecidableEq η] {i : η} {n : Nat}

theorem handler_goto (s : State η) (i j : η) (handler : Handler) :
    (s.goto i handler).handler j = if j = i then handler else s.handler j := by
  simp only [State.goto, Function.update_apply]

theorem goto_serving_iff {j : η} {handler : Handler} :
    (s.goto i handler).handler j = .serving ↔
      j = i ∧ handler = .serving ∨ j ≠ i ∧ s.handler j = .serving := by
  rw [handler_goto]
  by_cases hj : j = i
  · simp only [hj, if_true, true_and, ne_eq, not_true_eq_false, false_and, or_false]
  · simp only [hj, if_false, false_and, ne_eq, not_false_eq_true, true_and, false_or]

/-- A handler that neither had a guard nor gets one. -/
theorem Live.goto (hl : Live s n) (hi : s.handler i ≠ .serving) {handler : Handler}
    (hh : handler ≠ .serving) : Live (s.goto i handler) n := by
  obtain ⟨live, hlive, rfl⟩ := hl
  refine ⟨live, fun j => ?_, rfl⟩
  rw [goto_serving_iff, hlive j]
  refine ⟨fun hj => .inr ⟨fun he => hi (he ▸ hj), hj⟩, fun hj => ?_⟩
  rcases hj with ⟨-, hs⟩ | ⟨-, hj⟩
  · exact absurd hs hh
  · exact hj

/-- A guard obtained. -/
theorem Live.goto_serving (hl : Live s n) (hi : s.handler i ≠ .serving) :
    Live (s.goto i .serving) (n + 1) := by
  obtain ⟨live, hlive, rfl⟩ := hl
  have hnot : i ∉ live := fun hm => hi ((hlive i).mp hm)
  refine ⟨insert i live, fun j => ?_, Finset.card_insert_of_notMem hnot⟩
  rw [goto_serving_iff, Finset.mem_insert, hlive j]
  by_cases hj : j = i
  · simp only [hj, true_or, true_and]
  · simp only [hj, false_or, false_and, ne_eq, not_false_eq_true, true_and]

/-- A guard dropped. -/
theorem Live.goto_closed (hl : Live s n) (hi : s.handler i = .serving) :
    Live (s.goto i .closed) (n - 1) := by
  obtain ⟨live, hlive, rfl⟩ := hl
  refine ⟨live.erase i, fun j => ?_, Finset.card_erase_of_mem ((hlive i).mpr hi)⟩
  rw [goto_serving_iff, Finset.mem_erase, hlive j]
  simp only [reduceCtorEq, and_false, false_or, ne_eq]

end

/-! ## The invariant -/

theorem inv_initial (η : Type) : Inv (initial η) :=
  ⟨⟨∅, fun _ => ⟨nofun, nofun⟩, rfl⟩, Nat.zero_le _, nofun⟩

/-- A handler that goes on with a value read now, or with none, keeps the bound
on the values read. -/
theorem Inv.read_goto [DecidableEq η] (h : Inv s) {i : η} {handler : Handler}
    (hh : ∀ prev, handler = .acquiring prev → prev ≤ MAX_CONNECTIONS) (j : η) (prev : Nat)
    (hj : (s.goto i handler).handler j = .acquiring prev) : prev ≤ MAX_CONNECTIONS := by
  rw [handler_goto] at hj
  by_cases he : j = i
  · rw [if_pos he] at hj
    exact hh prev hj
  · rw [if_neg he] at hj
    exact h.read j prev hj

/-- A handler reads the counter. -/
theorem Inv.goto_acquiring [DecidableEq η] (h : Inv s) {i : η} (hi : s.handler i ≠ .serving) :
    Inv (s.goto i (.acquiring s.active)) := by
  refine ⟨h.live.goto hi nofun, h.le, h.read_goto fun prev he => ?_⟩
  rw [Handler.acquiring.injEq] at he
  rw [← he]
  exact h.le

section

variable [DecidableEq η] [Usize]

theorem Inv.step {a : Action η} (h : Inv s) (hs : Step s a s') : Inv s' := by
  cases hs with
  | load hi => exact h.goto_acquiring (by simp [hi])
  | @exchange i prev next hi hu ha =>
    obtain ⟨rfl, hlt⟩ := tryAcquireUpdate_some (h.read i prev hi) hu
    have hl : Live (s.goto i .serving) (s.active + 1) := h.live.goto_serving (by simp [hi])
    rw [ha] at hl
    exact ⟨hl, hlt, h.read_goto nofun⟩
  | retry hi hu => exact h.goto_acquiring (by simp [hi])
  | reject hi hu => exact ⟨h.live.goto (by simp [hi]) nofun, h.le, h.read_goto nofun⟩
  | @drop i hi =>
    have hdrop := drop_eq (h.live.pos hi) h.le
    refine ⟨?_, ?_, h.read_goto nofun⟩
    · show Live (s.goto i .closed) (ConnectionGuard.drop s.active)
      rw [hdrop]
      exact h.live.goto_closed hi
    · show ConnectionGuard.drop s.active ≤ MAX_CONNECTIONS
      rw [hdrop]
      exact Nat.le_trans (Nat.sub_le _ _) h.le

variable {h : List (State η × Action η)}

theorem always_inv (hr : Run (system η) h s) : Always Inv h s :=
  hr.always (fun _ hi => by rw [hi]; exact inv_initial η) fun _ _ _ => Inv.step

/-- A step moves one handler, which reads at most the counter. -/
theorem step_goto {a : Action η} (hs : Step s a s') :
    ∃ i handler, s'.handler = (s.goto i handler).handler ∧
      (readBy handler = none ∨ readBy handler = some s'.active) ∧
      (handler = .rejected → ∃ prev, s.handler i = .acquiring prev ∧
        ConnectionGuard.tryAcquireUpdate prev = .ok none) := by
  cases hs with
  | load hi => exact ⟨_, _, rfl, .inr rfl, nofun⟩
  | exchange hi hu ha => exact ⟨_, _, rfl, .inl rfl, nofun⟩
  | retry hi hu => exact ⟨_, _, rfl, .inr rfl, nofun⟩
  | reject hi hu => exact ⟨_, _, rfl, .inl rfl, fun _ => ⟨_, hi, hu⟩⟩
  | drop hi => exact ⟨_, _, rfl, .inl rfl, nofun⟩

/-- What a handler has read was the counter's value during its call. -/
theorem sometime_active (hr : Run (system η) h s) {i : η} {prev : Nat}
    (hi : s.handler i = .acquiring prev) :
    Sometime (fun s => s.handler i = .acquiring prev ∧ s.active = prev) h s := by
  have hread := hr.sometime_read State.active (fun s => readBy (s.handler i))
    (fun _ hi => by rw [hi]; rfl) (fun s a s' hs => ?_) (readBy_eq_some.mpr hi)
  · simpa only [readBy_eq_some] using hread
  · obtain ⟨j, handler, hh, hread, -⟩ := step_goto hs
    rw [hh, handler_goto]
    by_cases hij : i = j
    · rw [if_pos hij]
      exact .inr hread
    · rw [if_neg hij]
      exact .inl rfl

/-- A handler was rejected during a call in which some moment saw
`MAX_CONNECTIONS` live guards. -/
theorem rejected_full (hr : Run (system η) h s) {i : η} (hi : s.handler i = .rejected) :
    ∃ e ∈ h, (∃ prev, e.1.handler i = .acquiring prev) ∧ Live e.1 MAX_CONNECTIONS := by
  induction hr with
  | @start s h0 =>
    have hs : s = initial η := h0
    simp [hs, initial] at hi
  | @next h s s' a hr hs ih =>
    obtain ⟨j, handler, hh, -, hrej⟩ := step_goto hs
    rw [hh, handler_goto] at hi
    by_cases hij : i = j
    · rw [if_pos hij] at hi
      obtain ⟨prev, hj, hu⟩ := hrej hi
      rw [← hij] at hj
      have hprev := tryAcquireUpdate_none ((always_inv hr).last.read i prev hj) hu
      have hread := (sometime_active hr hj).and (always_inv hr)
      obtain ⟨e, he, hinv, hacq, hact⟩ := hread.exists_mem a
      exact ⟨e, he, ⟨prev, hacq⟩, by rw [← hprev, ← hact]; exact hinv.live⟩
    · rw [if_neg hij] at hi
      obtain ⟨e, he, hp⟩ := ih hi
      exact ⟨e, List.mem_cons_of_mem _ he, hp⟩

theorem drop_serving {a : Action η} (hs : Step s a s') (i : η) (ha : a = .drop i) :
    s.handler i = .serving := by
  cases hs with
  | drop hi =>
    cases ha
    exact hi
  | load | exchange | retry | reject => cases ha

/-- In every run of any number of handlers: `ACTIVE_CONNECTIONS` is the number of
live guards, at most `MAX_CONNECTIONS`; no guard is dropped at 0; a handler is
rejected only if `MAX_CONNECTIONS` guards were live at some moment of its call;
and once no handler is running, the counter is 0. -/
theorem connections_limited (hr : Run (system η) h s) :
    Live s s.active ∧ s.active ≤ MAX_CONNECTIONS ∧
    (∀ e ∈ h, ∀ i, e.2 = .drop i → 1 ≤ e.1.active) ∧
    (∀ i, s.handler i = .rejected →
      ∃ e ∈ h, (∃ prev, e.1.handler i = .acquiring prev) ∧ Live e.1 MAX_CONNECTIONS) ∧
    ((∀ i, s.handler i = .idle ∨ s.handler i = .rejected ∨ s.handler i = .closed) →
      s.active = 0) := by
  have hinv := always_inv hr
  refine ⟨hinv.1.live, hinv.1.le, fun e he i hd => ?_, fun i => rejected_full hr, fun hdone => ?_⟩
  · exact ((hinv.2 e he).live).pos (hr.took (fun _ _ _ => drop_serving) e he i hd)
  · apply hinv.1.live.eq_zero
    intro i hi
    rcases hdone i with hd | hd | hd <;> simp [hd] at hi

end

/-- Three handlers: the third one is rejected, and the counter is 0 in the end. -/
theorem three_handlers : ∃ h s, Run (@system (Fin 3) _ esp32) h s ∧ s.handler 2 = .rejected ∧
    s.active = 0 ∧ ∃ e ∈ h, Live e.1 2 := by
  let _ := esp32
  have h₀ : Run (system (Fin 3)) _ _ := .next (.start rfl) (.load (i := 0) rfl)
  have h₁ := h₀.next (.exchange (i := 0) rfl rfl rfl)
  have h₂ := (h₁.next (.load (i := 1) rfl)).next (.exchange (i := 1) rfl rfl rfl)
  have h₃ := (h₂.next (.load (i := 2) rfl)).next (.reject (i := 2) rfl rfl)
  have h₄ := (h₃.next (.drop (i := 0) rfl)).next (.drop (i := 1) rfl)
  obtain ⟨-, -, -, hrej, hdone⟩ := connections_limited h₄
  obtain ⟨e, he, -, hlive⟩ := hrej 2 rfl
  refine ⟨_, _, h₄, rfl, hdone fun i => ?_, e, he, hlive⟩
  rcases i with ⟨_ | _ | _ | i, hi⟩
  · exact .inr (.inr rfl)
  · exact .inr (.inr rfl)
  · exact .inr (.inl rfl)
  · omega

end SrkOS.Proof.Connection
