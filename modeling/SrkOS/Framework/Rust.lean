import Mathlib.Algebra.Group.Nat.Defs

/-!
# Rust's partial operations

The operations of Rust that may panic, in `Rust`: indexing and slicing an
array, and arithmetic on `usize`, which panics on overflow where overflow
checks are on. `usize` is a natural number below `2 ^ Usize.bits`; its width
is the target's, at least 16 bits.

A shared slice of one of several buffers (`Slice`) is the buffer it points
into and its length; what it shows (`Slice.read`) depends on what the buffers
hold when it is read.
-/

namespace Framework

/-- Why a piece of Rust code panics. -/
inductive Panic
  | indexOutOfBounds
  | arithmeticOverflow
  | charBoundary
  deriving DecidableEq, Repr

/-- The result of Rust code that may panic. -/
abbrev Rust := Except Panic

/-- The width of the target's `usize`. -/
class Usize where
  bits : Nat
  sixteen_le : 16 ≤ bits

theorem Usize.lt_pow [Usize] {n : Nat} (h : n < 2 ^ 16) : n < 2 ^ Usize.bits :=
  Nat.lt_of_lt_of_le h (Nat.pow_le_pow_right (by decide) Usize.sixteen_le)

/-- `a + b` on `usize`. -/
def usizeAdd [Usize] (a b : Nat) : Rust Nat :=
  if a + b < 2 ^ Usize.bits then .ok (a + b) else .error .arithmeticOverflow

/-- `a - b` on `usize`. -/
def usizeSub (a b : Nat) : Rust Nat :=
  if b ≤ a then .ok (a - b) else .error .arithmeticOverflow

/-- `fetch_sub` on an `AtomicUsize`: it wraps around on overflow. -/
def usizeWrappingSub [Usize] (a b : Nat) : Nat := (a + 2 ^ Usize.bits - b) % 2 ^ Usize.bits

theorem usizeAdd_ok [Usize] {a b : Nat} (h : a + b < 2 ^ 16) : usizeAdd a b = .ok (a + b) := by
  rw [usizeAdd, if_pos (Usize.lt_pow h)]

theorem usizeSub_ok {a b : Nat} (h : b ≤ a) : usizeSub a b = .ok (a - b) := by
  rw [usizeSub, if_pos h]

theorem usizeWrappingSub_of_le [Usize] {a b : Nat} (h : b ≤ a) (ha : a < 2 ^ Usize.bits) :
    usizeWrappingSub a b = a - b := by
  rw [usizeWrappingSub, show a + 2 ^ Usize.bits - b = a - b + 2 ^ Usize.bits by omega,
    Nat.add_mod_right, Nat.mod_eq_of_lt (by omega)]

/-! ## Arrays -/

section

variable {α : Type} {n : Nat}

/-- `xs[i]`. -/
def index (xs : Vector α n) (i : Nat) : Rust α :=
  if h : i < n then .ok xs[i] else .error .indexOutOfBounds

/-- `xs[i] = x`. -/
def store (xs : Vector α n) (i : Nat) (x : α) : Rust (Vector α n) :=
  if h : i < n then .ok (xs.set i x) else .error .indexOutOfBounds

theorem index_ok (xs : Vector α n) {i : Nat} (h : i < n) : index xs i = .ok xs[i] := by
  rw [index, dif_pos h]

theorem store_ok (xs : Vector α n) {i : Nat} (x : α) (h : i < n) :
    store xs i x = .ok (xs.set i x) := by
  rw [store, dif_pos h]

theorem take_one_setIfInBounds (xs : Vector α n) (h : 0 < n) (x : α) :
    (xs.setIfInBounds 0 x).toList.take 1 = [x] := by
  have hlen : xs.toList.length = n := Vector.length_toList
  rw [Vector.toList_setIfInBounds]
  cases hl : xs.toList with
  | nil => simp only [hl, List.length_nil] at hlen; omega
  | cons y ys => rfl

end

/-! ## Slices -/

/-- A shared slice: the static empty one, or the first `len` elements of the
buffer `buf`. -/
inductive Slice (ι : Type)
  | empty
  | of (buf : ι) (len : Nat)
  deriving DecidableEq, Repr

/-- `&xs[..len]`, where `xs` is the buffer `buf`. -/
def sliceTo {ι α : Type} {n : Nat} (buf : ι) (_xs : Vector α n) (len : Nat) : Rust (Slice ι) :=
  if len ≤ n then .ok (.of buf len) else .error .indexOutOfBounds

theorem sliceTo_ok {ι α : Type} {n : Nat} {buf : ι} {xs : Vector α n} {len : Nat} (h : len ≤ n) :
    sliceTo buf xs len = .ok (.of buf len) := by
  rw [sliceTo, if_pos h]

namespace Slice

variable {ι α : Type}

/-- What a slice shows of the buffers' contents. -/
def read (mem : ι → List α) : Slice ι → List α
  | .empty => []
  | .of buf len => (mem buf).take len

@[simp] theorem read_of (mem : ι → List α) (buf : ι) (len : Nat) :
    (of buf len).read mem = (mem buf).take len := rfl

/-- The buffers renamed. -/
def map {κ : Type} (f : ι → κ) : Slice ι → Slice κ
  | .empty => .empty
  | .of buf len => .of (f buf) len

end Slice

end Framework
