import Mathlib.Data.List.Basic

/-!
# Bounded channels

A FIFO queue of at most `cap` messages, as `embassy_sync::Channel`: sending to
a full channel and receiving from an empty one fail, and every message is
handed to one receiver.
-/

namespace Framework

structure Channel (α : Type) (cap : Nat) where
  queue : List α
  length_le : queue.length ≤ cap

namespace Channel

variable {α : Type} {cap : Nat}

def new : Channel α cap := ⟨[], Nat.zero_le _⟩

def Full (ch : Channel α cap) : Prop := ch.queue.length = cap

instance (ch : Channel α cap) : Decidable ch.Full := inferInstanceAs (Decidable (_ = _))

def trySend (ch : Channel α cap) (x : α) : Option (Channel α cap) :=
  if h : ch.queue.length < cap then
    some ⟨ch.queue ++ [x], by rw [List.length_append, List.length_singleton]; exact h⟩
  else none

def tryReceive (ch : Channel α cap) : Option (α × Channel α cap) :=
  match h : ch.queue with
  | [] => none
  | x :: xs => some (x, ⟨xs, by have := ch.length_le; rw [h, List.length_cons] at this; omega⟩)

theorem not_full_iff {ch : Channel α cap} : ¬ ch.Full ↔ ch.queue.length < cap := by
  have := ch.length_le
  rw [Full]; omega

/-- Sending appends the message, unless the channel is full. -/
theorem trySend_eq_some {ch ch' : Channel α cap} {x : α} :
    ch.trySend x = some ch' ↔ ¬ ch.Full ∧ ch'.queue = ch.queue ++ [x] := by
  rw [not_full_iff, trySend]
  split
  · rename_i h
    obtain ⟨q, hq⟩ := ch'
    simp only [Option.some.injEq, mk.injEq, h, true_and]
    exact eq_comm
  · rename_i h
    exact ⟨nofun, fun h' => absurd h'.1 h⟩

theorem trySend_eq_none {ch : Channel α cap} {x : α} : ch.trySend x = none ↔ ch.Full := by
  rw [← not_iff_not, not_full_iff, trySend]
  split
  · rename_i h; simp only [reduceCtorEq, not_false_eq_true, h]
  · rename_i h; simp only [not_true_eq_false, h]

theorem exists_trySend {ch : Channel α cap} (h : ¬ ch.Full) (x : α) :
    ∃ ch', ch.trySend x = some ch' :=
  Option.ne_none_iff_exists'.mp fun hn => h (trySend_eq_none.mp hn)

/-- Receiving removes the head. -/
theorem tryReceive_eq_some {ch ch' : Channel α cap} {x : α} :
    ch.tryReceive = some (x, ch') ↔ ch.queue = x :: ch'.queue := by
  obtain ⟨q, hq⟩ := ch
  obtain ⟨q', hq'⟩ := ch'
  cases q with
  | nil => simp [tryReceive]
  | cons y ys => simp [tryReceive]

theorem exists_tryReceive {ch : Channel α cap} (h : ch.queue ≠ []) :
    ∃ x ch', ch.tryReceive = some (x, ch') := by
  obtain ⟨q, hq⟩ := ch
  cases q with
  | nil => exact absurd rfl h
  | cons y ys => exact ⟨_, _, rfl⟩

/-- A channel is not full after a message was received from it. -/
theorem not_full_of_tryReceive {ch ch' : Channel α cap} {x : α}
    (h : ch.tryReceive = some (x, ch')) : ¬ ch'.Full := by
  have := ch.length_le
  rw [tryReceive_eq_some.mp h, List.length_cons] at this
  rw [not_full_iff]
  omega

end Channel

end Framework
