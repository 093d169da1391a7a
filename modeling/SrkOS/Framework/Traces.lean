import Mathlib.Data.Set.Basic
import SrkOS.Framework.Simulation

/-!
# What a system shows

The traces of a system are what its runs show to someone who sees only what `pick` picks
from the steps (`traces`). A simulation that shows the same at each step keeps the traces
(`Simulation.traces_subset`). Where a step of one system is carried out by several steps
of another (`Expansion`), the other one has its traces too (`Expansion.traces_subset`);
and so two systems, one of larger steps and one of smaller ones, are the same to those who
see only this.
-/

namespace Framework

variable {σ ι τ κ υ : Type} {M : System σ ι} {N : System τ κ}

/-- What the runs of a system show. -/
def traces (M : System σ ι) (pick : σ → ι → Option υ) : Set (List υ) :=
  {t | ∃ h s, Run M h s ∧ trace pick h = t}

/-- The traces of the runs whose steps all meet `ok`. -/
theorem mem_traces_restrict {ok : σ → ι → Prop} {pick : σ → ι → Option υ} {t : List υ} :
    t ∈ traces (M.restrict ok) pick ↔ ∃ h s, Run M h s ∧ Took ok h ∧ trace pick h = t := by
  simp only [traces, Set.mem_ofPred_eq, Run.restrict_iff, and_assoc]

theorem Simulation.traces_subset (S : Simulation M N) {pick : σ → ι → Option υ}
    {pick' : τ → κ → Option υ}
    (hp : ∀ s a s' t, S.rel s t → M.step s a s' → (S.act s a).bind (pick' t) = pick s a) :
    traces M pick ⊆ traces N pick' := by
  rintro _ ⟨h, s, hr, rfl⟩
  obtain ⟨h', t, hr', htrace, -⟩ := S.run_trace hp hr
  exact ⟨h', t, hr', htrace⟩

/-! ## Steps carried out by several -/

/-- `M` carries out the steps of `N`: each by a path between related states that shows what
the step does. -/
structure Expansion (N : System τ κ) (M : System σ ι) (pick' : τ → κ → Option υ)
    (pick : σ → ι → Option υ) where
  rel : τ → σ → Prop
  init : ∀ t, N.init t → ∃ s, M.init s ∧ rel t s
  step : ∀ t b t' s, rel t s → N.step t b t' →
    ∃ h s', Path M s h s' ∧ trace pick h = (pick' t b).toList ∧ rel t' s'

namespace Expansion

variable {pick' : τ → κ → Option υ} {pick : σ → ι → Option υ} (E : Expansion N M pick' pick)

/-- A run of `N` is carried out by a run of `M`. -/
theorem run {h' : List (τ × κ)} {t : τ} (hr : Run N h' t) :
    ∃ h s, Run M h s ∧ trace pick h = trace pick' h' ∧ E.rel t s := by
  induction hr with
  | start hi =>
    obtain ⟨s, hs, hrel⟩ := E.init _ hi
    exact ⟨[], s, .start hs, rfl, hrel⟩
  | @next h' t t' b hr hs ih =>
    obtain ⟨h, s, hr', htrace, hrel⟩ := ih
    obtain ⟨p, s', hp, hshow, hrel'⟩ := E.step t b t' s hrel hs
    exact ⟨p ++ h, s', hr'.append hp, by rw [trace_append, htrace, hshow, trace_cons], hrel'⟩

include E in
theorem traces_subset : traces N pick' ⊆ traces M pick := by
  rintro _ ⟨h', t, hr, rfl⟩
  obtain ⟨h, s, hr', htrace, -⟩ := E.run hr
  exact ⟨h, s, hr', htrace⟩

end Expansion

end Framework
