import Mathlib.Data.List.Basic

/-!
# Decimal numerals

The numerals that write natural numbers without leading zeros (`Numeral`), as
JSON does, and what they write (`value_ofNat`).

`readUnsigned` reads a numeral digit by digit into an integer type with a
largest value, checking each multiplication and addition for overflow.
However long the numeral is, what it reads is its value, if the type has it
(`readUnsigned_digits`).
-/

namespace Framework

/-- The value of a digit. -/
def digitValue (c : Char) : Nat := c.toNat - '0'.toNat

structure Numeral where
  digits : List Char
  isDigit : ∀ c ∈ digits, c.isDigit
  ne_nil : digits ≠ []
  noLeadingZero : digits.head? = some '0' → digits = ['0']

namespace Numeral

def text (x : Numeral) : String := String.ofList x.digits

def value (x : Numeral) : Nat := Nat.ofDigitChars 10 x.digits 0

theorem notMem_digits (x : Numeral) {c : Char} (hc : c.isDigit = false) : c ∉ x.digits := by
  intro hm
  have hd := x.isDigit c hm
  rw [hc] at hd
  exact Bool.false_ne_true hd

/-- The first digit is zero in the numeral of zero only. -/
theorem head?_toDigits {n : Nat} (h : (Nat.toDigits 10 n).head? = some '0') :
    Nat.toDigits 10 n = ['0'] := by
  induction n using Nat.base_induction 10 (by decide) with
  | single m hm =>
    rw [Nat.toDigits_of_lt_base hm] at h ⊢
    rw [Option.some.inj h]
  | digit m k hk hm ih =>
    rw [← Nat.toDigits_append_toDigits (by decide) hm hk,
      List.head?_append_of_ne_nil _ Nat.toDigits_ne_nil] at h
    have hz : Nat.ofDigitChars 10 (Nat.toDigits 10 m) 0 = 0 := by
      rw [ih h]
      rfl
    rw [Nat.ofDigitChars_ten_toDigits] at hz
    omega

/-- A number, written in decimal. -/
def ofNat (n : Nat) : Numeral where
  digits := Nat.toDigits 10 n
  isDigit _ hc := Nat.isDigit_of_mem_toDigits (by decide) (by decide) hc
  ne_nil := Nat.toDigits_ne_nil
  noLeadingZero := head?_toDigits

theorem text_ofNat (n : Nat) : (ofNat n).text = n.repr := Nat.repr_eq_ofList_toDigits.symm

theorem value_ofNat (n : Nat) : (ofNat n).value = n := Nat.ofDigitChars_ten_toDigits

end Numeral

/-! ## Reading -/

/-- `n`, where the largest value is `max`. -/
def checked (max n : Nat) : Option Nat := if n ≤ max then some n else none

/-- `n` with one more digit. -/
def pushDigit (max n : Nat) (c : Char) : Option Nat :=
  if c.isDigit then (checked max (n * 10)).bind fun tens => checked max (tens + digitValue c)
  else none

/-- The unsigned integer that is written there. -/
def readUnsigned (max : Nat) : List Char → Option Nat
  | [] => none
  | c :: cs =>
    if c = '0' then (if cs = [] then some 0 else none)
    else if c.isDigit then cs.foldlM (pushDigit max) (digitValue c)
    else none

theorem digitValue_le {c : Char} (h : c.isDigit) : digitValue c ≤ 9 := by
  have hle : c.toNat ≤ '9'.toNat := (Char.isDigit_iff_toNat.mp h).2
  have h0 : '0'.toNat = 48 := rfl
  have h9 : '9'.toNat = 57 := rfl
  rw [digitValue]
  omega

theorem pushDigit_eq {max n : Nat} {c : Char} (hc : c.isDigit) :
    pushDigit max n c = checked max (10 * n + digitValue c) := by
  rw [pushDigit, if_pos hc, Nat.mul_comm n 10]
  by_cases hn : 10 * n ≤ max
  · rw [checked, if_pos hn, Option.bind_some]
  · have hadd : ¬ 10 * n + digitValue c ≤ max := by omega
    rw [checked, if_neg hn, checked, if_neg hadd, Option.bind_none]

/-- More digits make no number smaller. -/
theorem le_ofDigitChars (n : Nat) (cs : List Char) : n ≤ Nat.ofDigitChars 10 cs n := by
  rw [Nat.ofDigitChars_eq_ofDigitChars_zero]
  have hpow : 0 < 10 ^ cs.length := Nat.pow_pos (by decide)
  have hmul : 1 * n ≤ 10 ^ cs.length * n := Nat.mul_le_mul_right n hpow
  omega

theorem foldlM_pushDigit {max n : Nat} (hn : n ≤ max) {cs : List Char}
    (h : ∀ c ∈ cs, c.isDigit) :
    cs.foldlM (pushDigit max) n = checked max (Nat.ofDigitChars 10 cs n) := by
  induction cs generalizing n with
  | nil => rw [Nat.ofDigitChars_nil, checked, if_pos hn]; rfl
  | cons c cs ih =>
    obtain ⟨hc, hcs⟩ := List.forall_mem_cons.mp h
    rw [List.foldlM_cons, pushDigit_eq hc, Nat.ofDigitChars_cons]
    by_cases hle : 10 * n + digitValue c ≤ max
    · rw [checked, if_pos hle]
      exact ih hle hcs
    · -- an overflow that further digits cannot undo
      have hmax := le_ofDigitChars (10 * n + digitValue c) cs
      have hgt : ¬ Nat.ofDigitChars 10 cs (10 * n + digitValue c) ≤ max := by omega
      rw [checked, if_neg hle]
      exact (if_neg hgt).symm

/-- Reading a numeral gives its value, unless that is too large. -/
theorem readUnsigned_digits {max : Nat} (hmax : 9 ≤ max) (x : Numeral) :
    readUnsigned max x.digits = checked max x.value := by
  obtain ⟨digits, hdigit, hne, hlead⟩ := x
  cases digits with
  | nil => exact absurd rfl hne
  | cons c cs =>
    obtain ⟨hc, hcs⟩ := List.forall_mem_cons.mp hdigit
    by_cases h0 : c = '0'
    · have hnil : cs = [] := (List.cons.inj (hlead (by rw [h0]; rfl))).2
      subst h0 hnil
      exact (if_pos (Nat.zero_le max)).symm
    · have hle := digitValue_le hc
      have hvalue : Nat.ofDigitChars 10 (c :: cs) 0 = Nat.ofDigitChars 10 cs (digitValue c) := by
        rw [Nat.ofDigitChars_cons, Nat.mul_zero, Nat.zero_add, digitValue]
      rw [Numeral.value, hvalue, readUnsigned, if_neg h0, if_pos hc]
      exact foldlM_pushDigit (by omega) hcs

end Framework
