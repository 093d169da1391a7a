import SrkOS.Framework.System
import Mathlib.Data.List.Basic
import Mathlib.Data.List.Induction

/-!
# Executions and fairness

An execution of a system is infinite; at each moment it takes a step or stays
where it is. Up to each of its moments it is a run (`Execution.run`).

A set of actions is treated fairly if one of them is taken in the end, weakly,
whenever one is enabled from some moment on, or strongly, whenever one is enabled
again and again. What is bound to happen is shown from a property that enables
the actions and that every other step keeps (`WeaklyFair.taken`,
`StronglyFair.taken`), and from a number that goes on growing
(`exists_le_of_progress`).

Executions with given runs as their beginnings: `exists_forever`. Runs that do the same
again and again: `Run.exists_repeated`.
-/

namespace Framework

variable {σ ι : Type} {M : System σ ι}

/-- What `pick` picks from the steps of a history, oldest first. -/
def trace {τ : Type} (pick : σ → ι → Option τ) (h : List (σ × ι)) : List τ :=
  h.reverse.filterMap fun e => pick e.1 e.2

theorem trace_nil {τ : Type} (pick : σ → ι → Option τ) : trace pick [] = [] := rfl

theorem trace_cons {τ : Type} (pick : σ → ι → Option τ) (s : σ) (a : ι) (h : List (σ × ι)) :
    trace pick ((s, a) :: h) = trace pick h ++ (pick s a).toList := by
  simp only [trace, List.reverse_cons, List.filterMap_append]
  cases hp : pick s a <;> simp [hp]

theorem trace_append {τ : Type} (pick : σ → ι → Option τ) (h h' : List (σ × ι)) :
    trace pick (h' ++ h) = trace pick h ++ trace pick h' := by
  rw [trace, trace, trace, List.reverse_append, List.filterMap_append]

/-- Where every run that has come to rest can go on until it rests again and shows `f x`
more, there is a run for each list of these. -/
theorem Run.exists_repeated {β τ : Type} {rest : σ → Prop} {ok : σ → ι → Prop}
    {pick : σ → ι → Option τ} {f : β → τ}
    (hnext : ∀ h s x, Run M h s → rest s → Took ok h → ∃ h' s', Run M h' s' ∧ rest s' ∧
      Took ok h' ∧ trace pick h' = trace pick h ++ [f x]) {s₀ : σ} (hi : M.init s₀)
    (h0 : rest s₀) (xs : List β) :
    ∃ h s, Run M h s ∧ rest s ∧ Took ok h ∧ trace pick h = xs.map f := by
  induction xs using List.reverseRecOn with
  | nil => exact ⟨[], s₀, .start hi, h0, took_nil _, rfl⟩
  | append_singleton xs x ih =>
    obtain ⟨h, s, hr, hrest, hok, htrace⟩ := ih
    obtain ⟨h', s', hr', hrest', hok', htrace'⟩ := hnext h s x hr hrest hok
    refine ⟨h', s', hr', hrest', hok', ?_⟩
    rw [htrace', htrace, List.map_append, List.map_singleton]

/-- A history that goes on has more to pick from. -/
theorem trace_grows {τ : Type} (pick : σ → ι → Option τ) {h h' : List (σ × ι)} (hs : h <:+ h') :
    trace pick h <+: trace pick h' := by
  obtain ⟨new, rfl⟩ := hs
  rw [trace_append]
  exact List.prefix_append _ _

theorem trace_congr {τ : Type} {pick pick' : σ → ι → Option τ} {h : List (σ × ι)}
    (hp : ∀ e ∈ h, pick e.1 e.2 = pick' e.1 e.2) : trace pick h = trace pick' h :=
  List.filterMap_congr fun e he => hp e (List.mem_reverse.mp he)

/-- What is picked from the abstraction of a run, picked from the run. -/
theorem Refines.trace_history {υ κ τ : Type} {N : System υ κ} (R : Refines M N)
    {pick : υ → κ → Option τ} {pick' : σ → ι → Option τ}
    (hp : ∀ s a, R.inv s → pick (R.abs s) (R.act a) = pick' s a) {h : List (σ × ι)} {s : σ}
    (hr : Run M h s) : trace pick (R.history h) = trace pick' h := by
  have habs : trace pick (R.history h) = trace (fun s a => pick (R.abs s) (R.act a)) h := by
    rw [trace, Refines.history, ← List.map_reverse, List.filterMap_map]
    rfl
  rw [habs]
  exact trace_congr fun e he => hp e.1 e.2 ((R.always_inv hr).2 e he)

/-- A moment of an execution: a step, or none. -/
def Moves (M : System σ ι) (s : σ) (a : Option ι) (s' : σ) : Prop :=
  match a with
  | some a => M.step s a s'
  | none => s' = s

structure Execution (M : System σ ι) where
  state : Nat → σ
  act : Nat → Option ι
  init : M.init (state 0)
  moves : ∀ n, Moves M (state n) (act n) (state (n + 1))

/-- Some action in `A` can be taken. -/
def Enabled (M : System σ ι) (A : ι → Prop) (s : σ) : Prop := ∃ a s', A a ∧ M.step s a s'

namespace Execution

variable (E : Execution M)

/-- The steps taken before moment `n`. -/
def history : Nat → List (σ × ι)
  | 0 => []
  | n + 1 =>
    match E.act n with
    | some a => (E.state n, a) :: history n
    | none => history n

theorem history_succ_of_some {n : Nat} {a : ι} (h : E.act n = some a) :
    E.history (n + 1) = (E.state n, a) :: E.history n := by
  simp only [history, h]

theorem history_succ_of_none {n : Nat} (h : E.act n = none) : E.history (n + 1) = E.history n := by
  simp only [history, h]

theorem step_of_some {n : Nat} {a : ι} (h : E.act n = some a) :
    M.step (E.state n) a (E.state (n + 1)) := by
  have hm := E.moves n
  rwa [h] at hm

theorem state_of_none {n : Nat} (h : E.act n = none) : E.state (n + 1) = E.state n := by
  have hm := E.moves n
  rwa [h] at hm

/-- An execution is a run up to each of its moments. -/
theorem run (n : Nat) : Run M (E.history n) (E.state n) := by
  induction n with
  | zero => exact .start E.init
  | succ n ih =>
    cases ha : E.act n with
    | none =>
      rw [E.history_succ_of_none ha, E.state_of_none ha]
      exact ih
    | some a =>
      rw [E.history_succ_of_some ha]
      exact ih.next (E.step_of_some ha)

theorem history_suffix {m n : Nat} (h : m ≤ n) : E.history m <:+ E.history n := by
  induction h with
  | refl => exact List.suffix_refl _
  | @step n _ ih =>
    refine ih.trans ?_
    cases ha : E.act n with
    | none => exact ⟨[], by rw [E.history_succ_of_none ha, List.nil_append]⟩
    | some a =>
      rw [E.history_succ_of_some ha]
      exact List.suffix_cons _ _

/-- What every step keeps that is none of `A`'s is kept until one of them is
taken. -/
theorem keep_until {P : σ → Prop} {A : ι → Prop}
    (hkeep : ∀ s a s', P s → ¬ A a → M.step s a s' → P s') {n : Nat} (hp : P (E.state n))
    {m : Nat} (hm : n ≤ m) (hA : ∀ k, n ≤ k → k < m → ∀ a, E.act k = some a → ¬ A a) :
    P (E.state m) := by
  induction hm with
  | refl => exact hp
  | @step m hm ih =>
    have hpm : P (E.state m) := ih fun k hk hlt => hA k hk (by omega)
    cases ha : E.act m with
    | none =>
      rw [E.state_of_none ha]
      exact hpm
    | some a => exact hkeep _ a _ hpm (hA m hm (Nat.lt_succ_self m) a ha) (E.step_of_some ha)

/-- What every step keeps is kept. -/
theorem keep {P : σ → Prop} (hkeep : ∀ s a s', P s → M.step s a s' → P s') {n : Nat}
    (hp : P (E.state n)) {m : Nat} (hm : n ≤ m) : P (E.state m) :=
  E.keep_until (A := fun _ => False) (fun s a s' hs _ => hkeep s a s' hs) hp hm
    fun _ _ _ _ _ => id

/-! ## Fairness -/

/-- At moment `n`, an action in `A` is taken. -/
def TakenAt (A : ι → Prop) (n : Nat) : Prop := ∃ a, E.act n = some a ∧ A a

def WeaklyFair (A : ι → Prop) : Prop :=
  ∀ n, (∀ m, n ≤ m → Enabled M A (E.state m)) → ∃ m, n ≤ m ∧ E.TakenAt A m

def StronglyFair (A : ι → Prop) : Prop :=
  ∀ n, (∀ k, n ≤ k → ∃ m, k ≤ m ∧ Enabled M A (E.state m)) → ∃ m, n ≤ m ∧ E.TakenAt A m

variable {E} {A : ι → Prop} {P : σ → Prop}

/-- What only an action in `A` could end, and none that is taken does, lasts for
ever, and none is taken. -/
theorem kept_of_not_taken (hkeep : ∀ s a s', P s → ¬ A a → M.step s a s' → P s') {n : Nat}
    (hp : P (E.state n)) (hn : ¬ ∃ m, n ≤ m ∧ E.TakenAt A m ∧ P (E.state m)) :
    ∀ m, n ≤ m → P (E.state m) ∧ ¬ E.TakenAt A m := by
  intro m
  induction m using Nat.strongRecOn with
  | ind m ih =>
    intro hm
    have hpm : P (E.state m) := by
      refine E.keep_until hkeep hp hm fun k hk hlt a ha hA => ?_
      exact (ih k hlt hk).2 ⟨a, ha, hA⟩
    exact ⟨hpm, fun ht => hn ⟨m, hm, ht, hpm⟩⟩

/-- What enables `A`, and what no other step ends, ends with a step in `A`. -/
theorem WeaklyFair.taken (hf : E.WeaklyFair A) (hen : ∀ s, P s → Enabled M A s)
    (hkeep : ∀ s a s', P s → ¬ A a → M.step s a s' → P s') {n : Nat} (hp : P (E.state n)) :
    ∃ m, n ≤ m ∧ E.TakenAt A m ∧ P (E.state m) := by
  by_contra hn
  have hall := kept_of_not_taken hkeep hp hn
  obtain ⟨m, hm, ht⟩ := hf n fun m hm => hen _ (hall m hm).1
  exact (hall m hm).2 ht

/-- What no other step ends, and while it lasts enables `A` again and again, ends
with a step in `A`. -/
theorem StronglyFair.taken (hf : E.StronglyFair A)
    (hkeep : ∀ s a s', P s → ¬ A a → M.step s a s' → P s') {n : Nat} (hp : P (E.state n))
    (hen : ∀ k, n ≤ k → (∀ m, k ≤ m → P (E.state m)) → ∃ m, k ≤ m ∧ Enabled M A (E.state m)) :
    ∃ m, n ≤ m ∧ E.TakenAt A m ∧ P (E.state m) := by
  by_contra hn
  have hall := kept_of_not_taken hkeep hp hn
  have hinf : ∀ k, n ≤ k → ∃ m, k ≤ m ∧ Enabled M A (E.state m) := fun k hk =>
    hen k hk fun m hm => (hall m (by omega)).1
  obtain ⟨m, hm, ht⟩ := hf n hinf
  exact (hall m hm).2 ht

/-- Actions that are never enabled from some moment on are treated fairly. -/
theorem stronglyFair_of_disabled {k : Nat} (h : ∀ n, k ≤ n → ¬ Enabled M A (E.state n)) :
    E.StronglyFair A := by
  intro n hen
  obtain ⟨m, hm, he⟩ := hen (max n k) (by omega)
  exact absurd he (h m (by omega))

theorem StronglyFair.weaklyFair (h : E.StronglyFair A) : E.WeaklyFair A :=
  fun n hen => h n fun k hk => ⟨k, Nat.le_refl k, hen k hk⟩

/-! ## Executions that go on from a run -/

/-- A run goes on as any infinite sequence of moments from its end does. -/
theorem exists_extending {h : List (σ × ι)} {s : σ} (hr : Run M h s) :
    ∀ (state : Nat → σ) (act : Nat → Option ι), state 0 = s →
      (∀ n, Moves M (state n) (act n) (state (n + 1))) →
      ∃ (E : Execution M) (k : Nat), E.history k = h ∧
        ∀ n, E.state (k + n) = state n ∧ E.act (k + n) = act n := by
  induction hr with
  | start hi =>
    intro state act h0 hm
    refine ⟨⟨state, act, by rw [h0]; exact hi, hm⟩, 0, rfl, fun n => ?_⟩
    simp only [Nat.zero_add, and_self]
  | @next h s s' a hr hs ih =>
    intro state act h0 hm
    obtain ⟨E, k, hk, hE⟩ := ih (fun n => n.casesOn s state) (fun n => n.casesOn (some a) act) rfl
      fun n => by
        cases n with
        | zero =>
          show M.step s a (state 0)
          rw [h0]
          exact hs
        | succ n => exact hm n
    refine ⟨E, k + 1, ?_, fun n => ?_⟩
    · have ha : E.act k = some a := (hE 0).2
      have hsk : E.state k = s := (hE 0).1
      rw [E.history_succ_of_some ha, hsk, hk]
    · rw [Nat.add_assoc, Nat.add_comm 1 n]
      exact hE (n + 1)

/-- Where a state with `I` can always be left, as `R` says, for a state with `I`, a
run that has got to such a state can go on for ever. -/
theorem exists_forever {I : σ → Prop} {R : σ → Option ι → Prop}
    (hnext : ∀ s, I s → ∃ a s', Moves M s a s' ∧ R s a ∧ I s') {h : List (σ × ι)} {s : σ}
    (hr : Run M h s) (hi : I s) :
    ∃ (E : Execution M) (k : Nat), E.history k = h ∧ E.state k = s ∧
      ∀ n, k ≤ n → I (E.state n) ∧ R (E.state n) (E.act n) := by
  choose act next hmoves hR hI using hnext
  let seq : Nat → { s : σ // I s } := fun n =>
    n.rec ⟨s, hi⟩ fun _ s => ⟨next s.1 s.2, hI s.1 s.2⟩
  obtain ⟨E, k, hk, hE⟩ := exists_extending hr (fun n => (seq n).1)
    (fun n => act (seq n).1 (seq n).2) rfl fun n => hmoves _ _
  refine ⟨E, k, hk, (hE 0).1, fun n hn => ?_⟩
  obtain ⟨d, rfl⟩ := Nat.exists_eq_add_of_le hn
  rw [(hE d).1, (hE d).2]
  exact ⟨(seq d).2, hR _ _⟩

/-- A run can go on with two steps, and stay where these lead for ever. -/
theorem exists_two_steps {h : List (σ × ι)} {s s' s'' : σ} {a b : ι} (hr : Run M h s)
    (hs : M.step s a s') (hs' : M.step s' b s'') :
    ∃ (E : Execution M) (k : Nat), E.state k = s ∧ E.act k = some a ∧ E.act (k + 1) = some b ∧
      ∀ n, k + 2 ≤ n → E.state n = s'' ∧ E.act n = none := by
  obtain ⟨E, k, -, hE⟩ := exists_extending hr
    (fun n => n.casesOn s fun n => n.casesOn s' fun _ => s'')
    (fun n => n.casesOn (some a) fun n => n.casesOn (some b) fun _ => none) rfl fun n => by
      rcases n with _ | _ | n
      · exact hs
      · exact hs'
      · exact rfl
  refine ⟨E, k, (hE 0).1, (hE 0).2, (hE 1).2, fun n hn => ?_⟩
  obtain ⟨d, rfl⟩ := Nat.exists_eq_add_of_le hn
  rw [Nat.add_assoc, Nat.add_comm 2 d]
  exact hE (d + 2)

/-- A run can stay where it is for ever. -/
theorem exists_staying {h : List (σ × ι)} {s : σ} (hr : Run M h s) :
    ∃ (E : Execution M) (k : Nat), E.history k = h ∧ ∀ n, k ≤ n → E.state n = s := by
  obtain ⟨E, k, hk, -, hE⟩ := exists_forever (I := fun s' => s' = s) (R := fun _ a => a = none)
    (fun s' hs => ⟨none, s', rfl, rfl, hs⟩) hr rfl
  exact ⟨E, k, hk, fun n hn => (hE n hn).1⟩

end Execution

/-- A number that from some moment on grows while it is below `k` gets there. -/
theorem exists_le_of_progress {f : Nat → Nat} {k n : Nat}
    (h : ∀ i, n ≤ i → f i < k → ∃ j, i ≤ j ∧ f i < f j) : ∃ m, n ≤ m ∧ k ≤ f m := by
  induction hd : k - f n using Nat.strongRecOn generalizing n with
  | ind d ih =>
    by_cases hlt : f n < k
    · obtain ⟨m, hm, hgrow⟩ := h n (Nat.le_refl n) hlt
      obtain ⟨m', hm', hle⟩ :=
        ih (k - f m) (by omega) (fun i hi => h i (by omega)) rfl
      exact ⟨m', by omega, hle⟩
    · exact ⟨n, Nat.le_refl n, by omega⟩

end Framework
