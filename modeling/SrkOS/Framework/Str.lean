import SrkOS.Framework.Rust
import SrkOS.Framework.Utf8

/-!
# Rust's `str`

A `&str` is a `String`, and its bytes are its UTF-8 encoding. Offsets into it
are in bytes, and slicing at an offset that is not at a character panics.
-/

namespace Framework

/-- `core::str::from_utf8`. -/
def fromUtf8 (bytes : List UInt8) : Option String := String.fromUTF8? bytes.toByteArray

/-- `&xs[off..]`. -/
def sliceFrom {α : Type} (xs : List α) (off : Nat) : Rust (List α) :=
  if off ≤ xs.length then .ok (xs.drop off) else .error .indexOutOfBounds

/-- The pieces of `xs.splitn(n, sep)`: at most `n`, the last of which is the
rest. -/
def splitn {α : Type} [DecidableEq α] (sep : α) : Nat → List α → List (List α)
  | 0, _ => []
  | 1, xs => [xs]
  | n + 2, xs => if sep ∈ xs then upTo sep xs :: splitn sep (n + 1) (after sep xs) else [xs]

/-- The characters that take the first `n` bytes. -/
def takeBytes : Nat → List Char → Option (List Char)
  | 0, _ => some []
  | _ + 1, [] => none
  | n + 1, c :: cs =>
    if c.utf8Size ≤ n + 1 then (takeBytes (n + 1 - c.utf8Size) cs).map (c :: ·) else none

namespace Str

/-- `s.as_bytes()`. -/
def bytes (s : String) : List UInt8 := utf8 s.toList

/-- `s.find(pat)`: the byte offset of the first match. -/
def find (s pat : String) : Option Nat :=
  (splitFirst pat.toList s.toList).map fun p => (utf8 p.1).length

/-- `&s[..n]`. -/
def sliceTo (s : String) (n : Nat) : Rust String :=
  match takeBytes n s.toList with
  | some cs => .ok (String.ofList cs)
  | none => .error .charBoundary

/-- `s.is_char_boundary(n)`: `n` is the offset of a character, or of the end. -/
def IsCharBoundary (s : String) (n : Nat) : Prop :=
  ∃ pre post, s.toList = pre ++ post ∧ (utf8 pre).length = n

/-- `s.splitn(n, sep)`. -/
def splitn (s : String) (n : Nat) (sep : Char) : List String :=
  (Framework.splitn sep n s.toList).map String.ofList

/-- `s.split(sep)`. -/
def split (s : String) (sep : Char) : List String := (s.toList.splitOn sep).map String.ofList

end Str

/-! ## Decoding -/

theorem fromUtf8_eq_some {raw : List UInt8} {s : String} :
    fromUtf8 raw = some s ↔ Str.bytes s = raw := by
  have hbytes : (Str.bytes s).toByteArray = s.toByteArray := String.utf8Encode_toList
  unfold fromUtf8 String.fromUTF8?
  refine ⟨fun h => ?_, fun h => ?_⟩
  · split at h
    · rw [Option.some.injEq] at h
      have hraw : raw.toByteArray = s.toByteArray := by rw [← h]; rfl
      rw [← hbytes] at hraw
      have hlist := congrArg (fun b => b.data.toList) hraw
      simp only [List.toList_data_toByteArray] at hlist
      exact hlist.symm
    · simp at h
  · subst h
    rw [hbytes, dif_pos s.isValidUTF8]
    rfl

theorem fromUtf8_bytes (s : String) : fromUtf8 (Str.bytes s) = some s := fromUtf8_eq_some.mpr rfl

theorem fromUtf8_utf8 (cs : List Char) : fromUtf8 (utf8 cs) = some (String.ofList cs) :=
  fromUtf8_eq_some.mpr (by rw [Str.bytes, String.toList_ofList])

theorem fromUtf8_eq_none {raw : List UInt8} : fromUtf8 raw = none ↔ ¬ IsUtf8 raw := by
  refine ⟨fun h hu => ?_, fun h => ?_⟩
  · obtain ⟨cs, rfl⟩ := hu
    simp [fromUtf8_utf8] at h
  · cases hs : fromUtf8 raw with
    | none => rfl
    | some s => exact absurd ⟨s.toList, fromUtf8_eq_some.mp hs⟩ h

/-! ## Slicing and splitting -/

theorem takeBytes_utf8 (pre post : List Char) :
    takeBytes (utf8 pre).length (pre ++ post) = some pre := by
  induction pre with
  | nil => exact takeBytes.eq_1 _
  | cons c pre ih =>
    rw [utf8_cons, List.length_append, String.length_utf8EncodeChar, List.cons_append]
    obtain ⟨n, hn⟩ : ∃ n, c.utf8Size + (utf8 pre).length = n + 1 :=
      ⟨c.utf8Size + (utf8 pre).length - 1, by have := c.utf8Size_pos; omega⟩
    rw [hn, takeBytes, if_pos (by omega), ← hn, Nat.add_sub_cancel_left, ih]
    rfl

/-- The text before a match, from its offset. -/
theorem sliceTo_append (pre post : List Char) :
    Str.sliceTo (String.ofList (pre ++ post)) (utf8 pre).length = .ok (String.ofList pre) := by
  rw [Str.sliceTo, String.toList_ofList, takeBytes_utf8]

section

variable {α : Type} [DecidableEq α] (a : α) (xs : List α)

theorem getElem?_splitn_zero : (splitn a 3 xs)[0]? = some (upTo a xs) := by
  unfold splitn
  by_cases h : a ∈ xs
  · rw [if_pos h]
    rfl
  · rw [if_neg h, upTo_of_notMem h]
    rfl

theorem getElem?_splitn_one :
    (splitn a 3 xs)[1]? = if a ∈ xs then some (upTo a (after a xs)) else none := by
  unfold splitn
  by_cases h : a ∈ xs
  · rw [if_pos h, if_pos h, List.getElem?_cons_succ, splitn]
    by_cases h' : a ∈ after a xs
    · rw [if_pos h']
      rfl
    · rw [if_neg h', upTo_of_notMem h']
      rfl
  · rw [if_neg h, if_neg h]
    rfl

end

end Framework
