import Mathlib.Data.Fintype.Card
import SrkOS.Framework.Execution
import SrkOS.Framework.Lists
import SrkOS.Proof.Http.Connections

/-!
# Retries of `try_acquire`

A handler's exchange fails, but for spurious failures, only on a value that the
counter no longer has (`stale`); some other handler has changed the counter since,
and each change makes it fail once at most (`Inv.failed`). Every handler changes the
counter twice, when it obtains its guard and when it drops it. So the failures are
bounded by the other handlers there are (`retries_bounded`), and a handler that is
not kept from going on, and whose exchanges do not fail spuriously for ever, returns
from `try_acquire` (`acquire_returns`).
-/

namespace SrkOS.Proof.Connection

open Framework SrkOS.Impl SrkOS.Impl.Connection

variable {η : Type}

/-- The handler whose action it is. -/
def actor : Action η → η
  | .load i | .exchange i | .retry i | .reject i | .drop i => i

/-- Whether an action changes the counter. -/
def changes : Action η → Bool
  | .exchange _ | .drop _ => true
  | .load _ | .retry _ | .reject _ => false

/-- The handler has read a value that the counter no longer has. -/
def stale (s : State η) (i : η) : Bool :=
  match s.handler i with
  | .acquiring prev => decide (s.active ≠ prev)
  | _ => false

/-- The times a handler has changed the counter. -/
def rank : Handler → Nat
  | .serving => 1
  | .closed => 2
  | .idle | .acquiring _ | .rejected => 0

theorem rank_le (handler : Handler) : rank handler ≤ 2 := by
  cases handler <;> simp [rank]

section

variable [DecidableEq η]

/-- The exchanges of `i` that failed on a stale value. -/
def failures (i : η) (h : List (State η × Action η)) : Nat :=
  h.countP fun e => decide (e.2 = .retry i) && stale e.1 i

/-- The changes of the counter by `j`. -/
def changesBy (j : η) (h : List (State η × Action η)) : Nat :=
  h.countP fun e => changes e.2 && decide (actor e.2 = j)

/-- The changes of the counter by other handlers than `i`. -/
def changesOfOthers (i : η) (h : List (State η × Action η)) : Nat :=
  h.countP fun e => changes e.2 && decide (actor e.2 ≠ i)

end

section

variable [DecidableEq η] [Usize] {s s' : State η} {a : Action η} {h : List (State η × Action η)}

/-! ## Steps -/

/-- A step leaves the other handlers where they are. -/
theorem handler_of_ne (hs : Step s a s') {i : η} (hi : i ≠ actor a) :
    s'.handler i = s.handler i := by
  cases hs with
  | load | exchange | retry | reject | drop => exact Function.update_of_ne hi _ _

/-- A handler that has just acted has read nothing, or what the counter is. -/
theorem stale_of_actor (hs : Step s a s') : stale s' (actor a) = false := by
  cases hs <;> simp [stale, actor, State.goto]

/-- What another handler does without changing the counter makes nothing stale. -/
theorem stale_of_ne (hs : Step s a s') {i : η} (hi : i ≠ actor a) (hc : changes a = false) :
    stale s' i = stale s i := by
  have hactive : s'.active = s.active := by
    cases hs with
    | load | retry | reject => rfl
    | exchange | drop => simp [changes] at hc
  rw [stale, stale, handler_of_ne hs hi, hactive]

/-- An exchange of `i` fails on a stale value, and only the change of another handler
makes what `i` has read stale. -/
theorem step_stale (hs : Step s a s') (i : η) :
    (decide (a = .retry i) && stale s i).toNat + (stale s' i).toNat ≤
      (stale s i).toNat + (changes a && decide (actor a ≠ i)).toNat := by
  by_cases hi : actor a = i
  · have hnew : stale s' i = false := by rw [← hi]; exact stale_of_actor hs
    cases stale s i <;> cases decide (a = .retry i) <;> simp [hnew]
  · have hretry : decide (a = .retry i) = false := by
      apply decide_eq_false
      rintro rfl
      exact hi rfl
    cases hc : changes a with
    | true =>
      have hle := Bool.toNat_le (stale s' i)
      simp [hretry, hi]
      omega
    | false => simp [hretry, stale_of_ne hs (Ne.symm hi) hc]

/-- A handler changes the counter as it obtains its guard, and as it drops it. -/
theorem step_rank (hs : Step s a s') (j : η) :
    rank (s'.handler j) = rank (s.handler j) + (changes a && decide (actor a = j)).toNat := by
  by_cases hj : actor a = j
  · subst hj
    cases hs with
    | load hi | exchange hi | retry hi | reject hi | drop hi =>
      simp [State.goto, rank, changes, actor, hi]
  · rw [handler_of_ne hs (Ne.symm hj)]
    simp [hj]

/-! ## Runs -/

/-- Every failure, and a stale value, is due to a change of its own. -/
theorem run_failures (hr : Run (system η) h s) (i : η) :
    failures i h + (stale s i).toNat ≤ changesOfOthers i h := by
  induction hr with
  | @start s h0 =>
    have hs : s = initial η := h0
    simp [hs, failures, stale, initial]
  | @next h s s' a hr hs ih =>
    have hstep := step_stale hs i
    simp only [failures, changesOfOthers, List.countP_cons] at ih ⊢
    simp only [Bool.toNat, Bool.cond_eq_ite] at hstep ih ⊢
    omega

theorem run_changesBy (hr : Run (system η) h s) (j : η) : changesBy j h = rank (s.handler j) := by
  induction hr with
  | @start s h0 =>
    have hs : s = initial η := h0
    simp [hs, changesBy, rank, initial]
  | @next h s s' a hr hs ih =>
    rw [step_rank hs j, ← ih]
    simp only [changesBy, List.countP_cons, Bool.toNat, Bool.cond_eq_ite]

/-- The others change the counter twice each at most. -/
theorem changesOfOthers_le (hr : Run (system η) h s) {i : η} {others : Finset η}
    (hall : ∀ j, j ≠ i → s.handler j ≠ .idle → j ∈ others) :
    changesOfOthers i h ≤ 2 * others.card := by
  calc changesOfOthers i h
    _ ≤ ∑ j ∈ others, changesBy j h := by
      refine countP_le_sum others fun e he hq => ?_
      simp only [Bool.and_eq_true, decide_eq_true_eq] at hq
      refine ⟨actor e.2, hall _ hq.2 fun hidle => ?_, by simp [hq.1]⟩
      -- a handler that has changed the counter is not idle
      have hzero : changesBy (actor e.2) h = 0 := by rw [run_changesBy hr, hidle, rank]
      rw [changesBy, List.countP_eq_zero] at hzero
      exact hzero e he (by simp [hq.1])
    _ = ∑ j ∈ others, rank (s.handler j) := Finset.sum_congr rfl fun j _ => run_changesBy hr j
    _ ≤ ∑ _j ∈ others, 2 := Finset.sum_le_sum fun j _ => rank_le _
    _ = 2 * others.card := by rw [Finset.sum_const_nat fun _ _ => rfl, Nat.mul_comm]

/-- In every run of any number of handlers, the exchanges of a handler that fail on a
stale value are no more than the changes of the counter by the others, and these are
at most two for each of the others that have begun. -/
theorem retries_bounded (hr : Run (system η) h s) (i : η) :
    failures i h ≤ changesOfOthers i h ∧
    ∀ others : Finset η, (∀ j, j ≠ i → s.handler j ≠ .idle → j ∈ others) →
      changesOfOthers i h ≤ 2 * others.card :=
  ⟨Nat.le_trans (Nat.le_add_right _ _) (run_failures hr i), fun _ => changesOfOthers_le hr⟩

end

/-- Of two handlers that have read 0, one obtains its guard; the exchange of the other
one fails then, and the next one succeeds. -/
theorem exists_stale : ∃ h s s' s'', Run (@system (Fin 2) _ esp32) h s ∧
    (@system (Fin 2) _ esp32).step s (.retry 1) s' ∧
    (@system (Fin 2) _ esp32).step s' (.exchange 1) s'' ∧ s.handler 1 = .acquiring 0 ∧
    stale s 1 = true ∧ failures 1 h = 0 ∧ s''.handler = fun _ => .serving := by
  let _ := esp32
  have h₀ : Run (system (Fin 2)) _ _ := .next (.start rfl) (.load (i := 0) rfl)
  have h₁ := (h₀.next (.load (i := 1) rfl)).next (.exchange (i := 0) rfl rfl rfl)
  refine ⟨_, _, _, _, h₁, .retry (i := 1) rfl rfl, .exchange (i := 1) rfl rfl rfl, rfl, rfl, rfl,
    ?_⟩
  funext i
  match i with
  | 0 => rfl
  | 1 => rfl

/-- Of two handlers that have read 0, one fails once and gets its guard after the other. -/
theorem one_retry : ∃ h s, Run (@system (Fin 2) _ esp32) h s ∧ s.handler 1 = .serving ∧
    failures 1 h = 1 ∧ failures 1 h ≤ changesOfOthers 1 h ∧ changesOfOthers 1 h ≤ 2 := by
  let _ := esp32
  obtain ⟨h, s, s', s'', hr, hretry, hexchange, -, hstale, hnone, hserving⟩ := exists_stale
  have hr' := (hr.next hretry).next hexchange
  obtain ⟨hle, hothers⟩ := retries_bounded hr' 1
  refine ⟨_, s'', hr', by rw [hserving], ?_, hle, hothers {0} fun j hj _ => ?_⟩
  · rw [failures] at hnone ⊢
    simp [hnone, hstale]
  · rw [Finset.mem_singleton]
    omega

/-! ## Returning -/

section

variable [DecidableEq η] [Usize] {s s' : State η} {a : Action η}

/-- `i` goes on in its `try_acquire`, after its load. -/
def GoesOn (i : η) (a : Action η) : Prop := a = .exchange i ∨ a = .retry i ∨ a = .reject i

theorem enabled_goesOn (hi : Inv s) {i : η} {prev : Nat} (hp : s.handler i = .acquiring prev) :
    Enabled (system η) (GoesOn i) s := by
  have hu := tryAcquireUpdate_ok (hi.read i prev hp)
  by_cases hlt : prev < MAX_CONNECTIONS
  · rw [if_pos hlt] at hu
    exact ⟨_, _, .inr (.inl rfl), .retry hp hu⟩
  · rw [if_neg hlt] at hu
    exact ⟨_, _, .inr (.inr rfl), .reject hp hu⟩

theorem acquiring_of_goesOn {i : η} (hgo : GoesOn i a) (hs : Step s a s') :
    ∃ prev, s.handler i = .acquiring prev := by
  rcases hgo with rfl | rfl | rfl
  · cases hs with
    | exchange hi _ _ => exact ⟨_, hi⟩
  · cases hs with
    | retry hi _ => exact ⟨_, hi⟩
  · cases hs with
    | reject hi _ => exact ⟨_, hi⟩

omit [DecidableEq η] [Usize] in
theorem actor_of_goesOn {i : η} (hgo : GoesOn i a) : actor a = i := by
  rcases hgo with rfl | rfl | rfl <;> rfl

/-- A handler that is in its call and goes on is still in it, or returns. -/
theorem acquiring_step {i : η} (hp : ∃ prev, s.handler i = .acquiring prev) (hs : Step s a s') :
    (∃ prev, s'.handler i = .acquiring prev) ∧ (GoesOn i a → a = .retry i) ∨
      s'.handler i = .serving ∨ s'.handler i = .rejected := by
  obtain ⟨prev, hp⟩ := hp
  by_cases hi : i = actor a
  · subst hi
    cases hs with
    | load hj => simp [actor, hj] at hp
    | exchange => exact .inr (.inl (Function.update_self _ _ _))
    | retry => exact .inl ⟨⟨_, Function.update_self _ _ _⟩, fun _ => rfl⟩
    | reject => exact .inr (.inr (Function.update_self _ _ _))
    | drop hj => simp [actor, hj] at hp
  · refine .inl ⟨⟨prev, by rw [handler_of_ne hs hi, hp]⟩, fun hgo => ?_⟩
    exact absurd (actor_of_goesOn hgo).symm hi

end

/-- With finitely many handlers: a handler that is in `try_acquire`, that does not stop
going on, and whose exchanges fail spuriously no more from some moment on, gets its
guard or is rejected. -/
theorem acquire_returns [DecidableEq η] [Fintype η] [Usize] {E : Execution (system η)} {i : η}
    (hfair : E.WeaklyFair (GoesOn i)) {n₀ : Nat}
    (hfail : ∀ n, n₀ ≤ n → E.act n = some (.retry i) → stale (E.state n) i = true) {n prev : Nat}
    (hp : (E.state n).handler i = .acquiring prev) :
    ∃ m, n ≤ m ∧ ((E.state m).handler i = .serving ∨ (E.state m).handler i = .rejected) := by
  by_contra hnever
  have hcall : ∀ m, n ≤ m → ∃ prev, (E.state m).handler i = .acquiring prev := by
    intro m hm
    induction hm with
    | refl => exact ⟨prev, hp⟩
    | @step m hm ih =>
      cases ha : E.act m with
      | none =>
        rw [E.state_of_none ha]
        exact ih
      | some a =>
        rcases acquiring_step ih (E.step_of_some ha) with ⟨h, -⟩ | h
        · exact h
        · exact absurd ⟨m + 1, Nat.le_succ_of_le hm, h⟩ hnever
  -- each time it goes on, it fails once more
  have hgrow : ∀ m, max n n₀ ≤ m →
      ∃ k, m ≤ k ∧ failures i (E.history m) < failures i (E.history k) := by
    intro m hm
    obtain ⟨k, hk, a, ha, hgo⟩ := hfair m fun k hk => by
      obtain ⟨prev, hp⟩ := hcall k (by omega)
      exact enabled_goesOn (always_inv (E.run k)).last hp
    have hretry : a = .retry i := by
      rcases acquiring_step (hcall k (by omega)) (E.step_of_some ha) with ⟨-, h⟩ | h
      · exact h hgo
      · exact absurd ⟨k + 1, by omega, h⟩ hnever
    subst hretry
    refine ⟨k + 1, by omega, ?_⟩
    have hstale := hfail k (by omega) ha
    have hmono : failures i (E.history m) ≤ failures i (E.history k) :=
      (E.history_suffix hk).sublist.countP_le
    rw [failures, failures, E.history_succ_of_some ha, List.countP_cons]
    simp only [hstale, decide_true, Bool.and_true, if_true]
    exact Nat.lt_succ_of_le hmono
  obtain ⟨m, -, hm⟩ := exists_le_of_progress (f := fun k => failures i (E.history k))
    (k := 2 * Fintype.card η + 1) fun m hm _ => hgrow m hm
  have hfailures := run_failures (E.run m) i
  have hothers : changesOfOthers i (E.history m) ≤ 2 * (Finset.univ : Finset η).card :=
    changesOfOthers_le (E.run m) fun j _ _ => Finset.mem_univ j
  rw [Finset.card_univ] at hothers
  omega

/-- A handler that has read what another one has changed since, gets its guard. -/
theorem contended_handler :
    ∃ (E : @Execution (State (Fin 2)) (Action (Fin 2)) (@system (Fin 2) _ esp32)) (n : Nat),
      (E.state n).handler 1 = .acquiring 0 ∧ stale (E.state n) 1 = true ∧
      E.act n = some (.retry 1) ∧
      ∃ m, n ≤ m ∧ ((E.state m).handler 1 = .serving ∨ (E.state m).handler 1 = .rejected) := by
  let _ := esp32
  obtain ⟨h, s, s', s'', hr, hretry, hexchange, hcall, hstale, -, hserving⟩ := exists_stale
  obtain ⟨E, k, hnow, hact, hnext, hafter⟩ := Execution.exists_two_steps hr hretry hexchange
  have h0 : (E.state k).handler 1 = .acquiring 0 := by rw [hnow, hcall]
  have hfail : ∀ n, k ≤ n → E.act n = some (.retry 1) → stale (E.state n) 1 = true := by
    intro n hn ha
    obtain rfl | rfl | hn : n = k ∨ n = k + 1 ∨ k + 2 ≤ n := by omega
    · rw [hnow, hstale]
    · simp [hnext] at ha
    · simp [(hafter n hn).2] at ha
  refine ⟨E, k, h0, hfail k (Nat.le_refl k) hact, hact,
    acquire_returns (fun n hen => ?_) hfail h0⟩
  -- the call has returned
  obtain ⟨a, s', hgo, hs⟩ := hen (max n (k + 2)) (by omega)
  obtain ⟨prev, hprev⟩ := acquiring_of_goesOn hgo hs
  simp [(hafter _ (Nat.le_max_right n (k + 2))).1, hserving] at hprev

end SrkOS.Proof.Connection
