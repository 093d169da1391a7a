import Mathlib.Data.List.Basic

/-!
# Registers

A state machine that some inputs overwrite and all others leave alone is a
register: after any inputs its state is what the last overwriting one wrote
(`Overwrites.foldl`). So the inputs that write nothing do not count, and two
lists of inputs with the same writes in the same order lead to the same state
(`Overwrites.foldl_congr`).
-/

namespace Framework

variable {σ ι : Type}

/-- `f` goes to what `write` gives for an input, and stays where it is if that is
nothing. -/
def Overwrites (f : σ → ι → σ) (write : ι → Option σ) : Prop := ∀ s a, f s a = (write a).getD s

namespace Overwrites

variable {f : σ → ι → σ} {write : ι → Option σ}

/-- The state is the last one written. -/
theorem foldl (h : Overwrites f write) (s : σ) (as : List ι) :
    as.foldl f s = ((as.filterMap write).getLast?).getD s := by
  induction as generalizing s with
  | nil => rfl
  | cons a as ih =>
    rw [List.foldl_cons, ih, h s a]
    cases hw : write a with
    | none => rw [List.filterMap_cons_none hw, Option.getD_none]
    | some s' =>
      rw [List.filterMap_cons_some hw, List.getLast?_cons, Option.getD_some, Option.getD_some]

/-- Only the writes count. -/
theorem foldl_congr (h : Overwrites f write) (s : σ) {as as' : List ι}
    (he : as.filterMap write = as'.filterMap write) : as.foldl f s = as'.foldl f s := by
  rw [h.foldl, h.foldl, he]

end Overwrites

/-- What is picked from the inputs that meet `p`, where nothing is picked from
the others, is what is picked from all. -/
theorem filterMap_filter_of {τ : Type} {p : ι → Bool} {pick : ι → Option τ}
    (h : ∀ a, p a = false → pick a = none) (as : List ι) :
    (as.filter p).filterMap pick = as.filterMap pick := by
  rw [List.filterMap_filter]
  apply List.filterMap_congr
  intro a _
  by_cases hp : p a = true
  · rw [if_pos hp]
  · rw [if_neg hp, h a (Bool.not_eq_true _ ▸ hp)]

end Framework
