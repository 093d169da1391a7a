import Mathlib.Data.List.Induction
import SrkOS.Framework.Register

/-!
# Registers with several writers

A list of inputs, each tagged with its writer, in the order in which they got to
the machine; `entriesOf k` are those of the writer `k`. They are all that counts if
those of the others change nothing (`foldl_entriesOf`). And a register holds what
the inputs of one of its writers alone lead to (`Overwrites.exists_writer`).
-/

namespace Framework

variable {κ ι : Type} [DecidableEq κ]

/-- What is tagged with `k`, in its order. -/
def entriesOf (k : κ) (l : List (κ × ι)) : List ι :=
  l.filterMap fun e => if e.1 = k then some e.2 else none

@[simp] theorem entriesOf_nil (k : κ) : entriesOf k ([] : List (κ × ι)) = [] := rfl

@[simp] theorem entriesOf_append (k : κ) (l l' : List (κ × ι)) :
    entriesOf k (l ++ l') = entriesOf k l ++ entriesOf k l' := List.filterMap_append

@[simp] theorem entriesOf_singleton (k : κ) (e : κ × ι) :
    entriesOf k [e] = if e.1 = k then [e.2] else [] := by
  rw [entriesOf, List.filterMap_cons, List.filterMap_nil]
  split <;> simp_all

theorem mem_entriesOf {k : κ} {l : List (κ × ι)} {a : ι} : a ∈ entriesOf k l ↔ (k, a) ∈ l := by
  simp only [entriesOf, List.mem_filterMap, Option.ite_none_right_eq_some, Option.some.injEq]
  constructor
  · rintro ⟨⟨k', a'⟩, hm, rfl, rfl⟩
    exact hm
  · exact fun hm => ⟨(k, a), hm, rfl, rfl⟩

theorem entriesOf_grows (k : κ) {l l' : List (κ × ι)} (h : l <+: l') :
    entriesOf k l <+: entriesOf k l' := by
  obtain ⟨rest, rfl⟩ := h
  rw [entriesOf_append]
  exact List.prefix_append _ _

variable {σ : Type} {f : σ → ι → σ}

/-- If the inputs of all others change nothing, only those of `k` count. -/
theorem foldl_entriesOf {k : κ} {l : List (κ × ι)} (hk : ∀ e ∈ l, e.1 ≠ k → ∀ s, f s e.2 = s)
    (s : σ) : (l.map Prod.snd).foldl f s = (entriesOf k l).foldl f s := by
  induction l generalizing s with
  | nil => rfl
  | cons e l ih =>
    have ih' := ih fun e he => hk e (List.mem_cons_of_mem _ he)
    rw [← List.singleton_append, entriesOf_append, entriesOf_singleton, List.map_append,
      List.foldl_append, List.foldl_append, ih']
    by_cases he : e.1 = k
    · rw [if_pos he]
      rfl
    · have hs := hk e List.mem_cons_self he s
      simp only [if_neg he, List.map_cons, List.map_nil, List.foldl_cons, List.foldl_nil, hs]

namespace Overwrites

variable {write : ι → Option σ}

/-- An input that writes nothing changes nothing. -/
theorem eq_self (h : Overwrites f write) (s : σ) {a : ι} (ha : write a = none) : f s a = s := by
  rw [h s a, ha, Option.getD_none]

/-- An input that writes makes what was before it immaterial. -/
theorem eq_of_some (h : Overwrites f write) (s : σ) {a : ι} {w : σ} (ha : write a = some w) :
    f s a = w := by
  rw [h s a, ha, Option.getD_some]

/-- The last input that writes decides. -/
theorem foldl_last (h : Overwrites f write) {a : ι} (ha : (write a).isSome = true)
    {after : List ι} (hn : ∀ b ∈ after, (write b).isSome = false) (before : List ι) (s s' : σ) :
    (before ++ a :: after).foldl f s = f s' a := by
  obtain ⟨w, hw⟩ := Option.isSome_iff_exists.mp ha
  have hafter : after.filterMap write = [] :=
    List.filterMap_eq_nil_iff.mpr fun b hb => Option.isNone_iff_eq_none.mp
      (Option.isSome_eq_false_iff.mp (hn b hb))
  rw [h.foldl, List.filterMap_append, List.filterMap_cons_some hw, hafter, List.getLast?_concat,
    Option.getD_some, h.eq_of_some s' hw]

/-- The register is in the state that the inputs of one writer lead to. -/
theorem exists_writer [Nonempty κ] (h : Overwrites f write) (l : List (κ × ι)) (s : σ) :
    ∃ k, (l.map Prod.snd).foldl f s = (entriesOf k l).foldl f s := by
  induction l using List.reverseRecOn with
  | nil => exact ⟨Classical.arbitrary κ, rfl⟩
  | append_singleton l e ih =>
    simp only [List.map_append, List.map_cons, List.map_nil, List.foldl_append, List.foldl_cons,
      List.foldl_nil, entriesOf_append, entriesOf_singleton]
    cases hw : write e.2 with
    | none =>
      -- the last writer is that of the inputs before
      obtain ⟨k, hk⟩ := ih
      refine ⟨k, ?_⟩
      rw [h.eq_self _ hw, hk]
      split
      · simp only [List.foldl_cons, List.foldl_nil, h.eq_self _ hw]
      · rfl
    | some w =>
      refine ⟨e.1, ?_⟩
      rw [if_pos rfl, h.eq_of_some _ hw]
      simp only [List.foldl_cons, List.foldl_nil, h.eq_of_some _ hw]

end Overwrites

end Framework
