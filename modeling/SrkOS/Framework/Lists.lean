import Mathlib.Algebra.BigOperators.Group.Finset.Basic
import Mathlib.Algebra.Order.BigOperators.Group.Finset

/-!
# Counting in lists

A list of at most one element has no two different ones (`eq_of_length_le_one`), and
what is counted in a list under one of several names is counted no more often than the
names together (`countP_le_sum`).
-/

namespace Framework

variable {α κ : Type}

theorem eq_of_length_le_one {xs : List α} (h : xs.length ≤ 1) {x y : α} (hx : x ∈ xs)
    (hy : y ∈ xs) : x = y := by
  rcases xs with _ | ⟨z, _ | ⟨w, xs⟩⟩
  · simp at hx
  · rw [List.mem_singleton.mp hx, List.mem_singleton.mp hy]
  · simp only [List.length_cons] at h
    omega

/-- What is counted is counted under one of the names of `js` at least. -/
theorem countP_le_sum (js : Finset κ) {q : α → Bool} {p : κ → α → Bool} {l : List α}
    (h : ∀ a ∈ l, q a = true → ∃ j ∈ js, p j a = true) :
    l.countP q ≤ ∑ j ∈ js, l.countP (p j) := by
  induction l with
  | nil => simp
  | cons a l ih =>
    have ih' := ih fun b hb => h b (List.mem_cons_of_mem _ hb)
    simp only [List.countP_cons, Finset.sum_add_distrib]
    by_cases hq : q a = true
    · obtain ⟨j, hj, hp⟩ := h a List.mem_cons_self hq
      have hone : 1 ≤ ∑ j ∈ js, if p j a = true then 1 else 0 := by
        calc 1 = if p j a = true then 1 else 0 := by rw [if_pos hp]
          _ ≤ ∑ j ∈ js, if p j a = true then 1 else 0 :=
            Finset.single_le_sum (f := fun j => if p j a = true then 1 else 0)
              (fun _ _ => Nat.zero_le _) hj
      rw [if_pos hq]
      omega
    · rw [if_neg hq]
      omega

end Framework
