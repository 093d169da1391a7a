import SrkOS.Framework.Execution

/-!
# Forward simulations

A relation between the states of two systems simulates the one by the other if
each step of the one is a step of the other, or none, between related states
(`Simulation.run`). Which it is may depend on the state the step is taken in: an
operation of several steps takes effect at one of them, and not always at the same
one.

Where the related state is a function of the state, and an invariant is needed, the
relation is a refinement with silent steps (`WeakRefines`): its runs are runs of the
other system (`WeakRefines.run`), whose states and steps say what those of the run do
(`WeakRefines.always_took_iff`, `WeakRefines.trace_history`).
-/

namespace Framework

/-- `N` simulates `M`: the step `a` of `M` from `s` is the step `act s a` of `N`, or
none, between states related by `rel`. -/
structure Simulation {σ ι τ κ : Type} (M : System σ ι) (N : System τ κ) where
  rel : σ → τ → Prop
  act : σ → ι → Option κ
  init : ∀ s, M.init s → ∃ t, N.init t ∧ rel s t
  step : ∀ s a s' t, rel s t → M.step s a s' → ∃ t', Moves N t (act s a) t' ∧ rel s' t'

namespace Simulation

variable {σ ι τ κ : Type} {M : System σ ι} {N : System τ κ} (S : Simulation M N)

/-- The steps of `N` that a history of `M` stands for, oldest first. -/
def actions (h : List (σ × ι)) : List κ := trace S.act h

/-- A run of `M` stands for a run of `N` to a related state. What is picked from the one is
picked from the other, if it is so for each step. -/
theorem run_trace {υ : Type} {pick : σ → ι → Option υ} {pick' : τ → κ → Option υ}
    (hp : ∀ s a s' t, S.rel s t → M.step s a s' → (S.act s a).bind (pick' t) = pick s a)
    {h : List (σ × ι)} {s : σ} (hr : Run M h s) :
    ∃ h' t, Run N h' t ∧ trace pick' h' = trace pick h ∧ S.rel s t := by
  induction hr with
  | start hi =>
    obtain ⟨t, ht, hrel⟩ := S.init _ hi
    exact ⟨[], t, .start ht, rfl, hrel⟩
  | @next h s s' a hr hs ih =>
    obtain ⟨h', t, hr', htrace, hrel⟩ := ih
    obtain ⟨t', hm, hrel'⟩ := S.step s a s' t hrel hs
    rw [trace_cons, ← htrace, ← hp s a s' t hrel hs]
    cases ha : S.act s a with
    | none =>
      rw [ha] at hm
      have ht : t' = t := hm
      exact ⟨h', t, hr', (List.append_nil _).symm, by rw [← ht]; exact hrel'⟩
    | some b =>
      rw [ha] at hm
      exact ⟨(t, b) :: h', t', hr'.next hm, trace_cons pick' t b h', hrel'⟩

/-- The steps of that run. -/
theorem run {h : List (σ × ι)} {s : σ} (hr : Run M h s) :
    ∃ h' t, Run N h' t ∧ (h'.map Prod.snd).reverse = S.actions h ∧ S.rel s t := by
  have hp : ∀ s a, (S.act s a).bind (fun b => some b) = S.act s a := fun s a =>
    Option.bind_fun_some (S.act s a)
  obtain ⟨h', t, hr', htrace, hrel⟩ := S.run_trace (fun s a _ _ _ _ => hp s a) hr
  refine ⟨h', t, hr', ?_, hrel⟩
  rw [actions, ← htrace, trace, ← List.map_reverse]
  exact (congrFun List.filterMap_eq_map' _).symm

end Simulation

/-! ## Refinement with silent steps -/

/-- `M` refines `N` but for silent steps: in the states with `inv`, which `M` starts in
and keeps, the step `a` of `M` from `s` is the step `act s a` of `N` between the
abstracted states, or none. -/
structure WeakRefines {σ ι τ κ : Type} (M : System σ ι) (N : System τ κ) where
  inv : σ → Prop
  abs : σ → τ
  act : σ → ι → Option κ
  init : ∀ s, M.init s → inv s ∧ N.init (abs s)
  step : ∀ s a s', inv s → M.step s a s' → inv s' ∧ Moves N (abs s) (act s a) (abs s')

namespace WeakRefines

variable {σ ι τ κ : Type} {M : System σ ι} {N : System τ κ} (R : WeakRefines M N)

/-- The steps of a history that are not silent, abstracted. -/
def history (h : List (σ × ι)) : List (τ × κ) :=
  h.filterMap fun e => (R.act e.1 e.2).map (R.abs e.1, ·)

theorem history_cons (s : σ) (a : ι) (h : List (σ × ι)) :
    R.history ((s, a) :: h) = ((R.act s a).map (R.abs s, ·)).toList ++ R.history h := by
  rw [history, List.filterMap_cons]
  cases R.act s a <;> rfl

theorem always_inv {h : List (σ × ι)} {s : σ} (hr : Run M h s) : Always R.inv h s :=
  hr.always (fun s hi => (R.init s hi).1) fun s a s' hi hs => (R.step s a s' hi hs).1

theorem inv_run {h : List (σ × ι)} {s : σ} (hr : Run M h s) : R.inv s := (R.always_inv hr).last

/-- A run of `M`, without its silent steps, is one of `N`. -/
theorem run {h : List (σ × ι)} {s : σ} (hr : Run M h s) : Run N (R.history h) (R.abs s) := by
  induction hr with
  | start hi => exact .start (R.init _ hi).2
  | @next h s s' a hr hs ih =>
    have hm := (R.step s a s' (R.inv_run hr) hs).2
    rw [history_cons]
    cases ha : R.act s a with
    | none =>
      rw [ha] at hm
      rw [show R.abs s' = R.abs s from hm]
      exact ih
    | some b =>
      rw [ha] at hm
      exact ih.next hm

/-- A property of the abstracted states holds throughout a run of `M` if it does
throughout its abstraction: the silent steps leave these states as they are. -/
theorem always_iff {P : τ → Prop} {h : List (σ × ι)} {s : σ} (hr : Run M h s) :
    Always P (R.history h) (R.abs s) ↔ Always (fun s => P (R.abs s)) h s := by
  induction hr with
  | start => simp only [history, List.filterMap_nil, always_nil]
  | @next h s s' a hr hs ih =>
    have hm := (R.step s a s' (R.inv_run hr) hs).2
    rw [history_cons, always_cons, ← ih]
    cases ha : R.act s a with
    | none =>
      rw [ha] at hm
      rw [show R.abs s' = R.abs s from hm]
      exact ⟨fun hp => ⟨hp.last, hp⟩, And.right⟩
    | some b => exact always_cons

theorem took_iff {ok : τ → κ → Prop} {h : List (σ × ι)} :
    Took ok (R.history h) ↔ Took (fun s a => ∀ b, R.act s a = some b → ok (R.abs s) b) h := by
  simp only [Took, history, List.mem_filterMap, Option.map_eq_some_iff, forall_exists_index,
    and_imp]
  refine ⟨fun hk e he b hb => hk (R.abs e.1, b) e he b hb rfl, fun hk e' e he b hb heq => ?_⟩
  rw [← heq]
  exact hk e he b hb

/-- What is picked from the abstraction of a run, picked from the run. -/
theorem trace_history {υ : Type} {pick : τ → κ → Option υ} {pick' : σ → ι → Option υ}
    (hp : ∀ s a, R.inv s → (R.act s a).bind (pick (R.abs s)) = pick' s a) {h : List (σ × ι)}
    {s : σ} (hr : Run M h s) : trace pick (R.history h) = trace pick' h := by
  induction hr with
  | start => rfl
  | @next h s s' a hr hs ih =>
    rw [history_cons, trace_cons, ← ih, ← hp s a (R.inv_run hr)]
    cases R.act s a with
    | none => exact (List.append_nil _).symm
    | some b => exact trace_cons pick (R.abs s) b (R.history h)

/-- `Run.always_iff_took`, from the abstraction of a run. -/
theorem always_took_iff {P : σ → Prop} {Q : τ → Prop} {ok : σ → ι → Prop} {ok' : τ → κ → Prop}
    (hP : ∀ s, R.inv s → (Q (R.abs s) ↔ P s))
    (hok : ∀ s a s', R.inv s → M.step s a s' →
      ((∀ b, R.act s a = some b → ok' (R.abs s) b) ↔ ok s a))
    (hN : ∀ h s, Run N h s → (Always Q h s ↔ Took ok' h)) {h : List (σ × ι)} {s : σ}
    (hr : Run M h s) : Always P h s ↔ Took ok h :=
  calc Always P h s
    _ ↔ Always (fun s => Q (R.abs s)) h s := (Always.congr (R.always_inv hr) hP).symm
    _ ↔ Always Q (R.history h) (R.abs s) := (R.always_iff hr).symm
    _ ↔ Took ok' (R.history h) := hN _ _ (R.run hr)
    _ ↔ Took (fun s a => ∀ b, R.act s a = some b → ok' (R.abs s) b) h := R.took_iff
    _ ↔ Took ok h := hr.took_congr hok (R.always_inv hr)

end WeakRefines

end Framework
