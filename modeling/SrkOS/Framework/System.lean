import Mathlib.Logic.Function.Basic

/-!
# Transition systems and their runs

A system is its initial states and its labelled steps. A run (`Run`) keeps its
history: every step it took, with the state the step was taken in, newest
first, so that a statement can speak of every state a run went through
(`Always`) and of every step it took (`Took`).

* `Run.invariant`, `Run.always`, `Run.always_took`: what each step keeps, or
  each step that meets a condition, a whole run keeps;
* `Run.always_iff_took`, `Run.always_iff_took_of`: where a step keeps a property
  exactly when it meets a condition, a run keeps the property throughout exactly
  when all of its steps meet the condition;
* `System.restrict`: the runs whose steps all meet a condition are those of a system;
* `Refines`: a system's steps are those of another one, seen through an
  abstraction of its states, and so are its runs (`Refines.run`);
* `forall_update`: what holds of everything that the parties of a system hold,
  when one of them takes something else;
* `Exclusive`: no party is in a call and holds something at the same time.
-/

namespace Framework

/-- A labelled transition system. -/
structure System (σ ι : Type) where
  init : σ → Prop
  step : σ → ι → σ → Prop

variable {σ ι : Type} {M : System σ ι}

/-- A run of `M` to a state, with its history. -/
inductive Run (M : System σ ι) : List (σ × ι) → σ → Prop
  | start {s : σ} : M.init s → Run M [] s
  | next {h : List (σ × ι)} {s s' : σ} {a : ι} :
      Run M h s → M.step s a s' → Run M ((s, a) :: h) s'

/-- The steps of `M` from `s₀` on, with their history. -/
inductive Path (M : System σ ι) (s₀ : σ) : List (σ × ι) → σ → Prop
  | nil : Path M s₀ [] s₀
  | next {h : List (σ × ι)} {s s' : σ} {a : ι} :
      Path M s₀ h s → M.step s a s' → Path M s₀ ((s, a) :: h) s'

/-- Every step of a history meets `ok`. -/
def Took (ok : σ → ι → Prop) (h : List (σ × ι)) : Prop := ∀ e ∈ h, ok e.1 e.2

/-- `P` holds in every state of a run: those its steps were taken in, and its
last. -/
def Always (P : σ → Prop) (h : List (σ × ι)) (s : σ) : Prop := P s ∧ ∀ e ∈ h, P e.1

/-- `P` held in some state of a run. -/
def Sometime (P : σ → Prop) (h : List (σ × ι)) (s : σ) : Prop := P s ∨ ∃ e ∈ h, P e.1

theorem took_nil (ok : σ → ι → Prop) : Took ok [] := fun _ he => nomatch he

theorem took_cons {ok : σ → ι → Prop} {s : σ} {a : ι} {h : List (σ × ι)} :
    Took ok ((s, a) :: h) ↔ ok s a ∧ Took ok h := by
  simp only [Took, List.mem_cons, forall_eq_or_imp]

theorem took_append {ok : σ → ι → Prop} {h h' : List (σ × ι)} :
    Took ok (h' ++ h) ↔ Took ok h' ∧ Took ok h := List.forall_mem_append

theorem always_nil {P : σ → Prop} {s : σ} : Always P ([] : List (σ × ι)) s ↔ P s := by
  simp only [Always, List.not_mem_nil, false_implies, implies_true, and_true]

theorem always_cons {P : σ → Prop} {s s' : σ} {a : ι} {h : List (σ × ι)} :
    Always P ((s, a) :: h) s' ↔ P s' ∧ Always P h s := by
  simp only [Always, List.mem_cons, forall_eq_or_imp]

theorem Always.mono {P Q : σ → Prop} {h : List (σ × ι)} {s : σ} (ha : Always P h s)
    (hi : ∀ s, P s → Q s) : Always Q h s :=
  ⟨hi _ ha.1, fun e he => hi _ (ha.2 e he)⟩

theorem Always.congr {I P Q : σ → Prop} {h : List (σ × ι)} {s : σ} (hi : Always I h s)
    (hPQ : ∀ s, I s → (P s ↔ Q s)) : Always P h s ↔ Always Q h s :=
  and_congr (hPQ _ hi.1) (forall₂_congr fun e he => hPQ _ (hi.2 e he))

/-- What held sometime in a run that goes on, held in a state it went on from. -/
theorem Sometime.exists_mem {P : σ → Prop} {h : List (σ × ι)} {s : σ} (hp : Sometime P h s)
    (a : ι) : ∃ e ∈ (s, a) :: h, P e.1 := by
  rcases hp with hp | ⟨e, he, hp⟩
  · exact ⟨(s, a), List.mem_cons_self, hp⟩
  · exact ⟨e, List.mem_cons_of_mem _ he, hp⟩

theorem Sometime.next {P : σ → Prop} {h : List (σ × ι)} {s s' : σ} {a : ι}
    (hp : Sometime P h s) : Sometime P ((s, a) :: h) s' :=
  .inr (hp.exists_mem a)

/-- What held sometime, held with what always holds. -/
theorem Sometime.and {I P : σ → Prop} {h : List (σ × ι)} {s : σ} (hp : Sometime P h s)
    (hi : Always I h s) : Sometime (fun s => I s ∧ P s) h s := by
  rcases hp with hp | ⟨e, he, hp⟩
  · exact .inl ⟨hi.1, hp⟩
  · exact .inr ⟨e, he, hi.2 e he, hp⟩

theorem Always.last {P : σ → Prop} {h : List (σ × ι)} {s : σ} (ha : Always P h s) : P s := ha.1

/-- What every step keeps, a path keeps. -/
theorem Path.keep {P : σ → Prop} (hstep : ∀ s a s', P s → M.step s a s' → P s') {s₀ s : σ}
    {h : List (σ × ι)} (hp : Path M s₀ h s) (h0 : P s₀) : P s := by
  induction hp with
  | nil => exact h0
  | next _ hs ih => exact hstep _ _ _ ih hs

namespace Run

/-- What holds at the start and every step keeps holds at the end of a run. -/
theorem invariant {P : σ → Prop} (h0 : ∀ s, M.init s → P s)
    (hstep : ∀ s a s', P s → M.step s a s' → P s') {h : List (σ × ι)} {s : σ}
    (hr : Run M h s) : P s := by
  induction hr with
  | start hi => exact h0 _ hi
  | next _ hs ih => exact hstep _ _ _ ih hs

/-- `invariant`, in every state of the run. -/
theorem always {P : σ → Prop} (h0 : ∀ s, M.init s → P s)
    (hstep : ∀ s a s', P s → M.step s a s' → P s') {h : List (σ × ι)} {s : σ}
    (hr : Run M h s) : Always P h s := by
  induction hr with
  | start hi => exact always_nil.mpr (h0 _ hi)
  | next _ hs ih => exact always_cons.mpr ⟨hstep _ _ _ ih.last hs, ih⟩

/-- A run goes on with a path. -/
theorem append {h h' : List (σ × ι)} {s s' : σ} (hr : Run M h s) (hp : Path M s h' s') :
    Run M (h' ++ h) s' := by
  induction hp with
  | nil => exact hr
  | next _ hs ih => exact ih.next hs

/-- What every step meets, every step of a run does. -/
theorem took {ok : σ → ι → Prop} (hstep : ∀ s a s', M.step s a s' → ok s a)
    {h : List (σ × ι)} {s : σ} (hr : Run M h s) : Took ok h := by
  induction hr with
  | start => exact took_nil _
  | next _ hs ih => exact took_cons.mpr ⟨hstep _ _ _ hs, ih⟩

/-- What each step meets exactly when it meets another condition. -/
theorem took_congr {I : σ → Prop} {ok ok' : σ → ι → Prop}
    (hok : ∀ s a s', I s → M.step s a s' → (ok s a ↔ ok' s a)) {h : List (σ × ι)} {s : σ}
    (hr : Run M h s) (hi : Always I h s) : Took ok h ↔ Took ok' h := by
  induction hr with
  | start => exact iff_of_true (took_nil _) (took_nil _)
  | next _ hs ih =>
    have hi := (always_cons.mp hi).2
    rw [took_cons, took_cons, hok _ _ _ hi.last hs, ih hi]

/-- `always`, for the runs whose steps all meet `ok`. -/
theorem always_took {P : σ → Prop} {ok : σ → ι → Prop} (h0 : ∀ s, M.init s → P s)
    (hstep : ∀ s a s', P s → ok s a → M.step s a s' → P s') {h : List (σ × ι)} {s : σ}
    (hr : Run M h s) (ht : Took ok h) : Always P h s := by
  induction hr with
  | start hi => exact always_nil.mpr (h0 _ hi)
  | next _ hs ih =>
    obtain ⟨hok, ht⟩ := took_cons.mp ht
    have ha := ih ht
    exact always_cons.mpr ⟨hstep _ _ _ ha.last hok hs, ha⟩

/-- A value that is only ever read from `val`, and kept or forgotten, was the
value of `val` in some state in which it was held. -/
theorem sometime_read {α : Type} (val : σ → α) (held : σ → Option α)
    (h0 : ∀ s, M.init s → held s = none)
    (hstep : ∀ s a s', M.step s a s' →
      held s' = held s ∨ held s' = none ∨ held s' = some (val s'))
    {h : List (σ × ι)} {s : σ} (hr : Run M h s) {v : α} (hv : held s = some v) :
    Sometime (fun s => held s = some v ∧ val s = v) h s := by
  induction hr with
  | start hi => simp [h0 _ hi] at hv
  | next _ hs ih =>
    rcases hstep _ _ _ hs with hk | hn | hc
    · exact (ih (hk ▸ hv)).next
    · simp [hn] at hv
    · rw [hc, Option.some.injEq] at hv
      exact .inl ⟨by rw [hc, hv], hv⟩

/-- Where `I` is kept by the steps that meet `ok`, implies `P`, and a step from it
that does not meet `ok` ends without `P`, the runs that have `P` throughout are
those whose steps all meet `ok`. -/
theorem always_iff_took_of {I P : σ → Prop} {ok : σ → ι → Prop} (h0 : ∀ s, M.init s → I s)
    (hstep : ∀ s a s', I s → ok s a → M.step s a s' → I s') (hP : ∀ s, I s → P s)
    (hok : ∀ s a s', I s → M.step s a s' → P s' → ok s a) {h : List (σ × ι)} {s : σ}
    (hr : Run M h s) : Always P h s ↔ Took ok h := by
  refine ⟨fun ha => ?_, fun ht => (hr.always_took h0 hstep ht).mono hP⟩
  induction hr with
  | start => exact took_nil _
  | next hr hs ih =>
    obtain ⟨hp, ha⟩ := always_cons.mp ha
    have ht := ih ha
    have hi := (hr.always_took h0 hstep ht).last
    exact took_cons.mpr ⟨hok _ _ _ hi hs hp, ht⟩

/-- Where a step from a state with `P` leads to one with `P` exactly when it
meets `ok`, the runs that have `P` throughout are those whose steps all meet
`ok`. -/
theorem always_iff_took {P : σ → Prop} {ok : σ → ι → Prop} (h0 : ∀ s, M.init s → P s)
    (hstep : ∀ s a s', P s → M.step s a s' → (P s' ↔ ok s a)) {h : List (σ × ι)} {s : σ}
    (hr : Run M h s) : Always P h s ↔ Took ok h :=
  hr.always_iff_took_of h0 (fun _ _ _ hp hok hs => (hstep _ _ _ hp hs).mpr hok) (fun _ => id)
    fun _ _ _ hp hs => (hstep _ _ _ hp hs).mp

end Run

/-- The steps of `M` that meet `ok`. -/
def System.restrict (M : System σ ι) (ok : σ → ι → Prop) : System σ ι where
  init := M.init
  step s a s' := M.step s a s' ∧ ok s a

/-- The runs of the restricted system are those whose steps all meet the condition. -/
theorem Run.restrict_iff {ok : σ → ι → Prop} {h : List (σ × ι)} {s : σ} :
    Run (M.restrict ok) h s ↔ Run M h s ∧ Took ok h := by
  constructor
  · intro hr
    induction hr with
    | start hi => exact ⟨.start hi, took_nil _⟩
    | next _ hs ih => exact ⟨ih.1.next hs.1, took_cons.mpr ⟨hs.2, ih.2⟩⟩
  · rintro ⟨hr, ht⟩
    induction hr with
    | start hi => exact .start hi
    | next _ hs ih =>
      obtain ⟨hok, ht⟩ := took_cons.mp ht
      exact (ih ht).next ⟨hs, hok⟩

/-! ## Refinement -/

/-- `M` refines `N`: in the states with `inv`, which `M` starts in and keeps,
a step of `M` is one of `N` between the abstracted states. -/
structure Refines {τ κ : Type} (M : System σ ι) (N : System τ κ) where
  inv : σ → Prop
  abs : σ → τ
  act : ι → κ
  init : ∀ s, M.init s → inv s ∧ N.init (abs s)
  step : ∀ s a s', inv s → M.step s a s' → inv s' ∧ N.step (abs s) (act a) (abs s')

namespace Refines

variable {τ κ : Type} {N : System τ κ} (R : Refines M N)

/-- A history, abstracted. -/
def history (h : List (σ × ι)) : List (τ × κ) := h.map fun e => (R.abs e.1, R.act e.2)

theorem inv_run {h : List (σ × ι)} {s : σ} (hr : Run M h s) : R.inv s :=
  hr.invariant (fun s hi => (R.init s hi).1) fun s a s' hi hs => (R.step s a s' hi hs).1

theorem always_inv {h : List (σ × ι)} {s : σ} (hr : Run M h s) : Always R.inv h s :=
  hr.always (fun s hi => (R.init s hi).1) fun s a s' hi hs => (R.step s a s' hi hs).1

/-- A run of `M` is one of `N`. -/
theorem run {h : List (σ × ι)} {s : σ} (hr : Run M h s) : Run N (R.history h) (R.abs s) := by
  induction hr with
  | start hi => exact .start (R.init _ hi).2
  | next hr hs ih => exact .next ih (R.step _ _ _ (R.inv_run hr) hs).2

/-- A property of the abstracted states holds throughout a run of `M` if it
does throughout its abstraction. -/
theorem always_iff {P : τ → Prop} {h : List (σ × ι)} {s : σ} :
    Always P (R.history h) (R.abs s) ↔ Always (fun s => P (R.abs s)) h s := by
  simp only [Always, history, List.mem_map, forall_exists_index, and_imp,
    forall_apply_eq_imp_iff₂]

theorem took_iff {ok : τ → κ → Prop} {h : List (σ × ι)} :
    Took ok (R.history h) ↔ Took (fun s a => ok (R.abs s) (R.act a)) h := by
  simp only [Took, history, List.mem_map, forall_exists_index, and_imp,
    forall_apply_eq_imp_iff₂]

/-- `always_iff_took`, from the abstraction of a run. -/
theorem always_took_iff {P : σ → Prop} {Q : τ → Prop} {ok : σ → ι → Prop} {ok' : τ → κ → Prop}
    (hP : ∀ s, R.inv s → (Q (R.abs s) ↔ P s)) (hok : ∀ s a, ok' (R.abs s) (R.act a) ↔ ok s a)
    (hN : ∀ h s, Run N h s → (Always Q h s ↔ Took ok' h)) {h : List (σ × ι)} {s : σ}
    (hr : Run M h s) : Always P h s ↔ Took ok h :=
  calc Always P h s
    _ ↔ Always (fun s => Q (R.abs s)) h s := (Always.congr (R.always_inv hr) hP).symm
    _ ↔ Always Q (R.history h) (R.abs s) := R.always_iff.symm
    _ ↔ Took ok' (R.history h) := hN _ _ (R.run hr)
    _ ↔ Took (fun s a => ok' (R.abs s) (R.act a)) h := R.took_iff
    _ ↔ Took ok h := forall₂_congr fun e _ => hok e.1 e.2

end Refines

/-! ## Parties -/

/-- What holds of everything held, and of what `i` holds from now on. -/
theorem forall_update {κ α : Type} [DecidableEq κ] {P : α → Prop} {held : κ → Option α}
    (h : ∀ k x, held k = some x → P x) (i : κ) {taken : Option α}
    (ht : ∀ x, taken = some x → P x) :
    ∀ k x, Function.update held i taken k = some x → P x := by
  intro k x hk
  by_cases hi : k = i
  · rw [hi, Function.update_self] at hk
    exact ht x hk
  · rw [Function.update_of_ne hi] at hk
    exact h k x hk

/-- No party is in a call and holds something. -/
def Exclusive {κ α β : Type} (calling : κ → Option α) (held : κ → Option β) : Prop :=
  ∀ k, calling k = none ∨ held k = none

namespace Exclusive

variable {κ α β : Type} {calling : κ → Option α} {held : κ → Option β}

theorem held_eq_none (h : Exclusive calling held) {k : κ} {x : α} (hk : calling k = some x) :
    held k = none :=
  (h k).resolve_left (by simp [hk])

variable [DecidableEq κ]

/-- A party that holds nothing begins a call. -/
theorem call (h : Exclusive calling held) {k : κ} (hk : held k = none) (x : Option α) :
    Exclusive (Function.update calling k x) held := by
  intro j
  by_cases hj : j = k
  · exact .inr (hj ▸ hk)
  · rw [Function.update_of_ne hj]
    exact h j

/-- A party's call returns. -/
theorem take (h : Exclusive calling held) (k : κ) (y : Option β) :
    Exclusive (Function.update calling k none) (Function.update held k y) := by
  intro j
  by_cases hj : j = k
  · exact .inl (by rw [hj, Function.update_self])
  · rw [Function.update_of_ne hj, Function.update_of_ne hj]
    exact h j

/-- A party that is in no call holds something else. -/
theorem hold (h : Exclusive calling held) {k : κ} (hk : calling k = none) (y : Option β) :
    Exclusive calling (Function.update held k y) := by
  intro j
  by_cases hj : j = k
  · exact .inl (hj ▸ hk)
  · rw [Function.update_of_ne hj]
    exact h j

theorem drop (h : Exclusive calling held) (k : κ) :
    Exclusive calling (Function.update held k none) := by
  intro j
  by_cases hj : j = k
  · exact .inr (by rw [hj, Function.update_self])
  · rw [Function.update_of_ne hj]
    exact h j

end Exclusive

end Framework
