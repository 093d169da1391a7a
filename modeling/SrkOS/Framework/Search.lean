/-!
# Searching lists

The first occurrence of a pattern in a list (`splitFirst`): what is before and
after it, `FirstSplit`. `splitFirst_eq_some` and `splitFirst_eq_none` say what it
finds; `splitFirst_append` that it still finds it when the list goes on.

`upTo` and `after` are what is before and after the first occurrence of an
element.

Lines are separated by two different elements (`x` and `y`, say CR and LF): the
first separator after a line, and the first empty line of a text
(`splitFirst_line`, `splitFirst_lines`).
-/

namespace Framework

variable {α : Type} [DecidableEq α]

/-! ## Patterns -/

/-- What is before and after the first occurrence of `pat`. -/
def splitFirst (pat : List α) : List α → Option (List α × List α)
  | [] => if pat = [] then some ([], []) else none
  | x :: xs =>
    if pat <+: x :: xs then some ([], (x :: xs).drop pat.length)
    else (splitFirst pat xs).map fun p => (x :: p.1, p.2)

theorem splitFirst_self_append (pat xs : List α) : splitFirst pat (pat ++ xs) = some ([], xs) := by
  cases h : pat ++ xs with
  | nil =>
    obtain ⟨rfl, rfl⟩ := List.append_eq_nil_iff.mp h
    rfl
  | cons z zs => rw [splitFirst, ← h, if_pos (List.prefix_append _ _), List.drop_left]

theorem splitFirst_cons {pat : List α} {x : α} {xs : List α} (h : ¬ pat <+: x :: xs) :
    splitFirst pat (x :: xs) = (splitFirst pat xs).map fun p => (x :: p.1, p.2) := by
  rw [splitFirst, if_neg h]

omit [DecidableEq α] in
/-- `pre` and `post` are before and after the first occurrence of `pat` in
`xs`. -/
def FirstSplit (pat pre post xs : List α) : Prop :=
  xs = pre ++ pat ++ post ∧
  ∀ pre' post', xs = pre' ++ pat ++ post' → pre.length ≤ pre'.length

omit [DecidableEq α] in
theorem FirstSplit.unique {pat pre post pre' post' xs : List α} (h : FirstSplit pat pre post xs)
    (h' : FirstSplit pat pre' post' xs) : pre = pre' ∧ post = post' := by
  have hlen : pre.length = pre'.length :=
    Nat.le_antisymm (h.2 _ _ h'.1) (h'.2 _ _ h.1)
  have he := h.1.symm.trans h'.1
  rw [List.append_assoc, List.append_assoc] at he
  obtain ⟨hpre, hpost⟩ := List.append_inj he hlen
  exact ⟨hpre, List.append_cancel_left hpost⟩

omit [DecidableEq α] in
/-- Before its first occurrence, a pattern does not occur. -/
theorem FirstSplit.not_infix {pat pre post xs : List α} (h0 : pat ≠ [])
    (h : FirstSplit pat pre post xs) : ¬ pat <:+: pre := by
  intro ⟨left, right, he⟩
  have hxs : xs = left ++ pat ++ (right ++ (pat ++ post)) := by
    rw [h.1, ← he]
    simp only [List.append_assoc]
  have hlen := h.2 left _ hxs
  have hpat := List.length_pos_iff.mpr h0
  simp only [← he, List.length_append] at hlen
  omega

omit [DecidableEq α] in
theorem firstSplit_cons {pat pre post xs : List α} {x : α} (hn : ¬ pat <+: x :: xs)
    (h : FirstSplit pat pre post xs) : FirstSplit pat (x :: pre) post (x :: xs) := by
  refine ⟨by rw [h.1]; rfl, fun pre' post' he => ?_⟩
  cases pre' with
  | nil =>
    rw [List.nil_append] at he
    exact absurd ⟨post', he.symm⟩ hn
  | cons x' pre' =>
    rw [List.cons_append, List.cons_append, List.cons.injEq] at he
    have := h.2 pre' post' he.2
    simp only [List.length_cons]
    omega

theorem firstSplit_of_splitFirst {pat pre post xs : List α}
    (h : splitFirst pat xs = some (pre, post)) : FirstSplit pat pre post xs := by
  induction xs generalizing pre with
  | nil =>
    simp only [splitFirst, Option.ite_none_right_eq_some, Option.some.injEq, Prod.mk.injEq] at h
    obtain ⟨rfl, rfl, rfl⟩ := h
    exact ⟨rfl, fun _ _ _ => Nat.zero_le _⟩
  | cons x xs ih =>
    unfold splitFirst at h
    by_cases hp : pat <+: x :: xs
    · rw [if_pos hp, Option.some.injEq, Prod.mk.injEq] at h
      obtain ⟨rfl, rfl⟩ := h
      refine ⟨?_, fun _ _ _ => Nat.zero_le _⟩
      obtain ⟨t, ht⟩ := hp
      rw [← ht, List.drop_left, List.nil_append]
    · rw [if_neg hp, Option.map_eq_some_iff] at h
      obtain ⟨⟨pre', post'⟩, hs, he⟩ := h
      rw [Prod.mk.injEq] at he
      obtain ⟨rfl, rfl⟩ := he
      exact firstSplit_cons hp (ih hs)

theorem splitFirst_eq_none {pat xs : List α} : splitFirst pat xs = none ↔ ¬ pat <:+: xs := by
  induction xs with
  | nil =>
    simp only [splitFirst, ite_eq_right_iff, reduceCtorEq, imp_false, List.infix_nil]
  | cons x xs ih =>
    unfold splitFirst
    rw [List.infix_cons_iff, not_or]
    by_cases hp : pat <+: x :: xs
    · simp only [hp, if_true, reduceCtorEq, not_true_eq_false, false_and]
    · simp only [hp, if_false, Option.map_eq_none_iff, ih, not_false_eq_true, true_and]

/-- `splitFirst` finds the first occurrence. -/
theorem splitFirst_eq_some {pat pre post xs : List α} :
    splitFirst pat xs = some (pre, post) ↔ FirstSplit pat pre post xs := by
  refine ⟨firstSplit_of_splitFirst, fun h => ?_⟩
  cases hs : splitFirst pat xs with
  | none => exact absurd ⟨pre, post, h.1.symm⟩ (splitFirst_eq_none.mp hs)
  | some p =>
    obtain ⟨pre', post'⟩ := p
    obtain ⟨rfl, rfl⟩ := (firstSplit_of_splitFirst hs).unique h
    rfl

/-- The first occurrence stays the first one when the list goes on. -/
theorem splitFirst_append {pat pre post xs : List α} (h : splitFirst pat xs = some (pre, post))
    (ys : List α) : splitFirst pat (xs ++ ys) = some (pre, post ++ ys) := by
  obtain ⟨hxs, hmin⟩ := splitFirst_eq_some.mp h
  refine splitFirst_eq_some.mpr ⟨by rw [hxs, List.append_assoc], fun pre' post' he => ?_⟩
  apply Nat.le_of_not_lt
  intro hlt
  -- an earlier occurrence would be in `xs` already
  have hlen : (pre' ++ pat).length ≤ xs.length := by
    simp only [hxs, List.length_append]
    omega
  have hpre : pre' ++ pat <+: xs ++ ys := ⟨post', he.symm⟩
  obtain ⟨t, ht⟩ := List.prefix_of_prefix_length_le hpre (List.prefix_append xs ys) hlen
  exact absurd (hmin pre' t ht.symm) (Nat.not_le.mpr hlt)

/-- The windows of length `n`, `xs.windows(n)`. -/
def windows {α : Type} (n : Nat) : List α → List (List α)
  | [] => []
  | x :: xs => if n ≤ (x :: xs).length then (x :: xs).take n :: windows n xs else []

/-- The position of the first window that is `pat`. -/
theorem findIdx?_windows {pat : List α} (h0 : pat ≠ []) (xs : List α) :
    (windows pat.length xs).findIdx? (fun w => decide (w = pat)) =
      (splitFirst pat xs).map fun p => p.1.length := by
  induction xs with
  | nil => rw [splitFirst, if_neg h0]; rfl
  | cons x xs ih =>
    unfold windows
    by_cases hn : pat.length ≤ (x :: xs).length
    · rw [if_pos hn, List.findIdx?_cons, splitFirst]
      by_cases hp : pat <+: x :: xs
      · have ht : (x :: xs).take pat.length = pat := (List.prefix_iff_eq_take.mp hp).symm
        simp only [ht, decide_true, if_true, if_pos hp, Option.map_some, List.length_nil]
      · have ht : (x :: xs).take pat.length ≠ pat := fun he =>
          hp (List.prefix_iff_eq_take.mpr he.symm)
        simp only [ht, decide_false, Bool.false_eq_true, if_false, if_neg hp, ih, Option.map_map]
        rfl
    · have hs : splitFirst pat (x :: xs) = none :=
        splitFirst_eq_none.mpr fun hi => hn hi.length_le
      rw [if_neg hn, hs]
      rfl

/-! ## Elements -/

/-- What is before the first `a`, or all. -/
def upTo (a : α) (xs : List α) : List α := xs.takeWhile (· ≠ a)

/-- What is after the first `a`. -/
def after (a : α) (xs : List α) : List α := (xs.dropWhile (· ≠ a)).tail

theorem upTo_cons (a x : α) (xs : List α) :
    upTo a (x :: xs) = if x = a then [] else x :: upTo a xs := by
  rw [upTo, List.takeWhile_cons]
  by_cases hx : x = a
  · simp only [hx, ne_eq, not_true_eq_false, decide_false, Bool.false_eq_true, if_false, if_true]
  · simp only [hx, ne_eq, not_false_eq_true, decide_true, if_true, if_false, upTo]

theorem after_cons (a x : α) (xs : List α) :
    after a (x :: xs) = if x = a then xs else after a xs := by
  rw [after, List.dropWhile_cons]
  by_cases hx : x = a
  · simp only [hx, ne_eq, not_true_eq_false, decide_false, Bool.false_eq_true, if_false, if_true,
      List.tail_cons]
  · simp only [hx, ne_eq, not_false_eq_true, decide_true, if_true, if_false, after]

theorem upTo_isPrefix (a : α) (xs : List α) : upTo a xs <+: xs := List.takeWhile_prefix _

theorem after_isSuffix (a : α) (xs : List α) : after a xs <:+ xs :=
  (List.tail_suffix _).trans (List.dropWhile_suffix _)

theorem notMem_upTo (a : α) (xs : List α) : a ∉ upTo a xs := by
  induction xs with
  | nil => exact List.not_mem_nil
  | cons x xs ih =>
    rw [upTo_cons]
    by_cases hx : x = a
    · rw [if_pos hx]
      exact List.not_mem_nil
    · rw [if_neg hx, List.mem_cons, not_or]
      exact ⟨Ne.symm hx, ih⟩

theorem upTo_append_of_notMem {a : α} {xs : List α} (h : a ∉ xs) (ys : List α) :
    upTo a (xs ++ ys) = xs ++ upTo a ys := by
  induction xs with
  | nil => rfl
  | cons x xs ih =>
    rw [List.mem_cons, not_or] at h
    rw [List.cons_append, upTo_cons, if_neg (Ne.symm h.1), ih h.2, List.cons_append]

theorem after_append_of_notMem {a : α} {xs : List α} (h : a ∉ xs) (ys : List α) :
    after a (xs ++ ys) = after a ys := by
  induction xs with
  | nil => rfl
  | cons x xs ih =>
    rw [List.mem_cons, not_or] at h
    rw [List.cons_append, after_cons, if_neg (Ne.symm h.1), ih h.2]

theorem upTo_of_notMem {a : α} {xs : List α} (h : a ∉ xs) : upTo a xs = xs := by
  have := upTo_append_of_notMem h []
  rwa [List.append_nil, show upTo a [] = [] from rfl, List.append_nil] at this

/-- Up to the separator. -/
theorem upTo_append {a : α} {xs : List α} (h : a ∉ xs) (ys : List α) :
    upTo a (xs ++ a :: ys) = xs := by
  rw [upTo_append_of_notMem h, upTo_cons, if_pos rfl, List.append_nil]

/-- After the separator. -/
theorem after_append {a : α} {xs : List α} (h : a ∉ xs) (ys : List α) :
    after a (xs ++ a :: ys) = ys := by
  rw [after_append_of_notMem h, after_cons, if_pos rfl]

/-- The first piece of a list that is split. -/
theorem head?_splitOn (a : α) (xs : List α) : (xs.splitOn a).head? = some (upTo a xs) := by
  induction xs with
  | nil => rfl
  | cons x xs ih =>
    rw [List.splitOn_cons_eq_if_modifyHead, upTo_cons]
    by_cases hx : x = a
    · rw [if_pos hx, if_pos (beq_iff_eq.mpr hx), List.head?_cons]
    · rw [if_neg hx, if_neg (by rw [beq_iff_eq]; exact hx)]
      obtain ⟨y, ys, hy⟩ := List.exists_cons_of_ne_nil (List.splitOn_ne_nil a xs)
      rw [hy, List.head?_cons, Option.some.injEq] at ih
      rw [hy, List.modifyHead_cons, List.head?_cons, ih]

/-! ## Lines -/

section

variable {x y : α} (hxy : x ≠ y)

omit [DecidableEq α] in
theorem not_infix_of_notMem {line : List α} (h : x ∉ line) : ¬ [x, y] <:+: line :=
  fun hi => h (hi.subset List.mem_cons_self)

omit [DecidableEq α] in
/-- A separator is on one side of an element that is not part of it. -/
theorem infix_append_cons {c : α} (hx : c ≠ x) (hy : c ≠ y) {left right : List α}
    (h : [x, y] <:+: left ++ c :: right) : [x, y] <:+: left ∨ [x, y] <:+: right := by
  induction left with
  | nil =>
    rw [List.nil_append, List.infix_cons_iff] at h
    rcases h with ⟨t, ht⟩ | h
    · exact absurd (List.cons.inj ht).1.symm hx
    · exact .inr h
  | cons d left ih =>
    rw [List.cons_append, List.infix_cons_iff] at h
    rcases h with ⟨t, ht⟩ | h
    · cases left with
      | nil =>
        simp only [List.cons_append, List.nil_append, List.cons.injEq] at ht
        exact absurd ht.2.1.symm hy
      | cons e left =>
        simp only [List.cons_append, List.nil_append, List.cons.injEq] at ht
        obtain ⟨rfl, rfl, -⟩ := ht
        exact .inl ⟨[], left, rfl⟩
    · rcases ih h with h | h
      · exact .inl (h.trans (List.suffix_cons d left).isInfix)
      · exact .inr h

include hxy

omit [DecidableEq α] in
/-- A line that is not empty and has no separator in it does not begin with one,
even when one follows. -/
theorem not_prefix_line {line : List α} (hne : line ≠ []) (hl : ¬ [x, y] <:+: line)
    (rest : List α) : ¬ [x, y] <+: line ++ [x, y] ++ rest := by
  intro ⟨t, ht⟩
  rcases line with _ | ⟨c, _ | ⟨d, line⟩⟩
  · exact hne rfl
  · -- the separator would begin at the end of the line
    simp only [List.cons_append, List.nil_append, List.cons.injEq] at ht
    exact hxy ht.2.1.symm
  · simp only [List.cons_append, List.nil_append, List.cons.injEq] at ht
    obtain ⟨rfl, rfl, -⟩ := ht
    exact hl ⟨[], line, rfl⟩

/-- The first separator is the one that ends the first line. -/
theorem splitFirst_line {line : List α} (hl : ¬ [x, y] <:+: line) (rest : List α) :
    splitFirst [x, y] (line ++ [x, y] ++ rest) = some (line, rest) := by
  induction line with
  | nil => exact splitFirst_self_append [x, y] rest
  | cons c line ih =>
    have hp := not_prefix_line hxy (List.cons_ne_nil c line) hl rest
    rw [List.cons_append, List.cons_append] at hp ⊢
    rw [splitFirst_cons hp, ih fun hi => hl (hi.trans (List.suffix_cons c line).isInfix)]
    rfl

/-- The first empty line comes right after the first line. -/
theorem splitFirst_empty_line {line : List α} (hl : ¬ [x, y] <:+: line) (rest : List α) :
    splitFirst [x, y, x, y] (line ++ [x, y] ++ ([x, y] ++ rest)) = some (line, rest) := by
  induction line with
  | nil => exact splitFirst_self_append [x, y, x, y] rest
  | cons c line ih =>
    have hp := not_prefix_line hxy (List.cons_ne_nil c line) hl ([x, y] ++ rest)
    have hp' : ¬ [x, y, x, y] <+: c :: line ++ [x, y] ++ ([x, y] ++ rest) := fun h =>
      hp ((List.prefix_append [x, y] [x, y]).trans h)
    rw [List.cons_append, List.cons_append] at hp' ⊢
    rw [splitFirst_cons hp', ih fun hi => hl (hi.trans (List.suffix_cons c line).isInfix)]
    rfl

/-- After a line that is followed by one that is not empty, the search for an
empty line goes on with the latter. -/
theorem splitFirst_next_line {line rest : List α} (hl : ¬ [x, y] <:+: line)
    (hr : ¬ [x, y] <+: rest) :
    splitFirst [x, y, x, y] (line ++ [x, y] ++ rest) =
      (splitFirst [x, y, x, y] rest).map fun p => (line ++ [x, y] ++ p.1, p.2) := by
  induction line with
  | nil =>
    have hp : ¬ [x, y, x, y] <+: x :: y :: rest := by
      intro ⟨t, ht⟩
      simp only [List.cons_append, List.nil_append, List.cons.injEq, true_and] at ht
      exact hr ⟨t, ht⟩
    have hp' : ¬ [x, y, x, y] <+: y :: rest := fun ⟨t, ht⟩ => hxy (List.cons.inj ht).1
    rw [List.nil_append, List.cons_append, List.cons_append, List.nil_append, splitFirst_cons hp,
      splitFirst_cons hp', Option.map_map]
    rfl
  | cons c line ih =>
    have hp := not_prefix_line hxy (List.cons_ne_nil c line) hl rest
    have hp' : ¬ [x, y, x, y] <+: c :: line ++ [x, y] ++ rest := fun h =>
      hp ((List.prefix_append [x, y] [x, y]).trans h)
    rw [List.cons_append, List.cons_append] at hp' ⊢
    rw [splitFirst_cons hp', ih fun hi => hl (hi.trans (List.suffix_cons c line).isInfix),
      Option.map_map]
    rfl

/-- What is after the first empty line of a text whose other lines, but for the
first, are not empty. -/
theorem splitFirst_lines {line : List α} (hl : ¬ [x, y] <:+: line) {lines : List (List α)}
    (hls : ∀ l ∈ lines, l ≠ [] ∧ ¬ [x, y] <:+: l) (rest : List α) :
    ∃ pre, splitFirst [x, y, x, y]
      (line ++ [x, y] ++ (lines.flatMap (· ++ [x, y]) ++ ([x, y] ++ rest))) = some (pre, rest) := by
  induction lines generalizing line with
  | nil => exact ⟨line, splitFirst_empty_line hxy hl rest⟩
  | cons l lines ih =>
    obtain ⟨⟨hne, hl'⟩, hls⟩ := List.forall_mem_cons.mp hls
    obtain ⟨pre, hpre⟩ := ih hl' hls
    rw [List.flatMap_cons, List.append_assoc (l ++ [x, y])]
    refine ⟨line ++ [x, y] ++ pre, ?_⟩
    rw [splitFirst_next_line hxy hl (not_prefix_line hxy hne hl' _), hpre]
    rfl

end

end Framework
