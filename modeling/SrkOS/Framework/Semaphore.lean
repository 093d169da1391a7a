import Mathlib.Data.Finset.Card
import SrkOS.Framework.System

/-!
# Semaphores

A semaphore with `n` permits, whose operations take effect in one step each: a
party takes a permit if fewer than `n` are held, and is refused one if `n` are.
-/

namespace Framework.Semaphore

inductive Action (η : Type)
  | take (i : η)
  | refuse (i : η)
  | release (i : η)
  deriving DecidableEq

variable {η : Type} [DecidableEq η]

/-- The steps of a semaphore, between the sets of parties that hold a permit. -/
inductive Step (n : Nat) : Finset η → Action η → Finset η → Prop
  | take {held : Finset η} {i : η} (hi : i ∉ held) (hn : held.card < n) :
      Step n held (.take i) (insert i held)
  | refuse {held : Finset η} {i : η} (hi : i ∉ held) (hn : n ≤ held.card) :
      Step n held (.refuse i) held
  | release {held : Finset η} {i : η} (hi : i ∈ held) :
      Step n held (.release i) (held.erase i)

def system (n : Nat) (η : Type) [DecidableEq η] : System (Finset η) (Action η) where
  init held := held = ∅
  step := Step n

/-- Whether `i` got a permit, if the operation is its request of one. -/
def answer (i : η) : Action η → Option Bool
  | .take j => if j = i then some true else none
  | .refuse j => if j = i then some false else none
  | .release _ => none

/-- The answers that `i` got, oldest first. -/
def answers (i : η) (ops : List (Action η)) : List Bool := ops.filterMap (answer i)

@[simp] theorem answers_nil (i : η) : answers i [] = [] := rfl

theorem answers_append (i : η) (ops ops' : List (Action η)) :
    answers i (ops ++ ops') = answers i ops ++ answers i ops' :=
  List.filterMap_append

@[simp] theorem answers_take (i j : η) : answers i [.take j] = if j = i then [true] else [] := by
  by_cases h : j = i <;> simp [answers, answer, h]

@[simp] theorem answers_refuse (i j : η) :
    answers i [.refuse j] = if j = i then [false] else [] := by
  by_cases h : j = i <;> simp [answers, answer, h]

@[simp] theorem answers_release (i j : η) : answers i [.release j] = [] := rfl

end Framework.Semaphore
