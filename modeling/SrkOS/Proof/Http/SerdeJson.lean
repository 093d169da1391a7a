import SrkOS.Framework.Decimal
import SrkOS.Framework.Str
import SrkOS.Impl.Http
import SrkOS.Impl.Payload

/-!
# What `serde_json_core` is relied on for

`SerdeJson` is what is assumed of the JSON decoder about payloads without white
space: integers are read if their type has their value, strings if they fit, and
no variants but those of `ApiCommand`.

`compactDecoder` reads these payloads, and nothing else, that way
(`compactDecoder_serdeJson`).
-/

namespace SrkOS.Proof.Http

open Framework SrkOS.Impl

/-- The string needs no escapes in JSON: it has no quotes, backslashes or control
characters in it. -/
def Plain (s : String) : Prop := ∀ c ∈ s.toList, c ≠ '"' ∧ c ≠ '\\' ∧ 0x20 ≤ c.toNat

instance (s : String) : Decidable (Plain s) := List.decidableBAll _ s.toList

/-- The variants of `ApiCommand`. -/
def variants : List String := ["SetFaceExpression", "MoveServo", "StreamAudio", "StreamVideo"]

/-- The decoder reads an `ApiCommand` as its derived `Deserialize` does. -/
structure SerdeJson (fromSlice : List UInt8 → Option ApiCommand) : Prop where
  setFaceExpression : ∀ expr, Plain expr →
    fromSlice (Str.bytes (Payload.setFaceExpression expr)) =
      if h : (Str.bytes expr).length ≤ 16 then some (.setFaceExpression ⟨expr, h⟩) else none
  moveServo : ∀ id angle : Numeral,
    fromSlice (Str.bytes (Payload.moveServo id.text angle.text)) =
      if id.value < UInt8.size ∧ angle.value < UInt16.size then
        some (.moveServo (UInt8.ofNat id.value, UInt16.ofNat angle.value))
      else none
  streamAudio : ∀ on, fromSlice (Str.bytes (Payload.streamAudio on)) = some (.streamAudio on)
  streamVideo : ∀ on, fromSlice (Str.bytes (Payload.streamVideo on)) = some (.streamVideo on)
  unknown : ∀ tag value, Plain tag → tag ∉ variants →
    fromSlice (Str.bytes (Payload.tagged tag value)) = none

/-! ## A decoder -/

/-- A string, and the end of the object. -/
def decodeString (value : List Char) : Option ApiCommand := do
  let rest ← value.dropPrefix? ['"']
  let expr := String.ofList (upTo '"' rest)
  if h : (Str.bytes expr).length ≤ 16 ∧ after '"' rest = ['}'] then
    some (.setFaceExpression ⟨expr, h.1⟩)
  else none

/-- A pair of integers, and the end of the object. -/
def decodePair (value : List Char) : Option ApiCommand := do
  let rest ← value.dropPrefix? ['[']
  let id ← readUnsigned (UInt8.size - 1) (upTo ',' rest)
  let rest := after ',' rest
  let angle ← readUnsigned (UInt16.size - 1) (upTo ']' rest)
  if after ']' rest = ['}'] then some (.moveServo (UInt8.ofNat id, UInt16.ofNat angle)) else none

/-- A flag, and the end of the object. -/
def decodeFlag (value : List Char) : Option Bool :=
  if value = (Payload.flag true).toList ++ ['}'] then some true
  else if value = (Payload.flag false).toList ++ ['}'] then some false
  else none

def decodeVariant (value : List Char) : String → Option ApiCommand
  | "SetFaceExpression" => decodeString value
  | "MoveServo" => decodePair value
  | "StreamAudio" => (decodeFlag value).map .streamAudio
  | "StreamVideo" => (decodeFlag value).map .streamVideo
  | _ => none

/-- A JSON decoder for payloads without white space. -/
def compactDecoder (data : List UInt8) : Option ApiCommand := do
  let text ← fromUtf8 data
  let rest ← text.toList.dropPrefix? ['{', '"']
  let value ← (after '"' rest).dropPrefix? [':']
  decodeVariant value (String.ofList (upTo '"' rest))

theorem dropPrefix?_append (p s : List Char) : (p ++ s).dropPrefix? p = some s :=
  List.dropPrefix?_append_of_beq s (beq_self_eq_true p)

theorem toList_tagged (tag value : String) :
    (Payload.tagged tag value).toList =
      ['{', '"'] ++ (tag.toList ++ '"' :: ([':'] ++ (value.toList ++ ['}']))) := by
  simp [Payload.tagged, String.toList_append]

theorem compactDecoder_tagged {tag : String} (h : '"' ∉ tag.toList) (value : String) :
    compactDecoder (Str.bytes (Payload.tagged tag value)) =
      decodeVariant (value.toList ++ ['}']) tag := by
  simp only [compactDecoder, fromUtf8_bytes, toList_tagged, dropPrefix?_append, Option.bind_eq_bind,
    Option.bind_some, after_append h, upTo_append h, String.ofList_toList]

theorem Plain.quote_notMem {s : String} (h : Plain s) : '"' ∉ s.toList := fun hm => (h _ hm).1 rfl

theorem decodeString_quoted {expr : String} (h : Plain expr) :
    decodeString (("\"" ++ expr ++ "\"").toList ++ ['}']) =
      if h : (Str.bytes expr).length ≤ 16 then some (.setFaceExpression ⟨expr, h⟩) else none := by
  have hlist : ("\"" ++ expr ++ "\"").toList ++ ['}'] = ['"'] ++ (expr.toList ++ '"' :: ['}']) := by
    simp [String.toList_append]
  simp only [decodeString, hlist, dropPrefix?_append, Option.bind_eq_bind, Option.bind_some,
    upTo_append h.quote_notMem, after_append h.quote_notMem, String.ofList_toList, and_true]

theorem decodePair_numerals (id angle : Numeral) :
    decodePair (("[" ++ id.text ++ "," ++ angle.text ++ "]").toList ++ ['}']) =
      if id.value < UInt8.size ∧ angle.value < UInt16.size then
        some (.moveServo (UInt8.ofNat id.value, UInt16.ofNat angle.value))
      else none := by
  have hlist : ("[" ++ id.text ++ "," ++ angle.text ++ "]").toList ++ ['}'] =
      ['['] ++ (id.digits ++ ',' :: (angle.digits ++ ']' :: ['}'])) := by
    simp [Numeral.text, String.toList_append]
  have hcomma : ',' ∉ id.digits := id.notMem_digits (by decide)
  have hbracket : ']' ∉ angle.digits := angle.notMem_digits (by decide)
  simp only [decodePair, hlist, dropPrefix?_append, Option.bind_eq_bind, Option.bind_some,
    upTo_append hcomma, after_append hcomma, upTo_append hbracket, after_append hbracket, if_true]
  rw [readUnsigned_digits (by decide), readUnsigned_digits (by decide)]
  have hid : id.value ≤ UInt8.size - 1 ↔ id.value < UInt8.size := by rw [UInt8.size]; omega
  have hangle : angle.value ≤ UInt16.size - 1 ↔ angle.value < UInt16.size := by
    rw [UInt16.size]; omega
  by_cases hi : id.value < UInt8.size
  · by_cases ha : angle.value < UInt16.size
    · simp only [checked, hid, hangle, hi, ha, if_true, Option.bind_some, and_self]
    · simp only [checked, hid, hangle, hi, ha, if_true, if_false, Option.bind_some,
        Option.bind_none, and_false]
  · simp only [checked, hid, hi, if_false, Option.bind_none, false_and]

theorem decodeFlag_flag (on : Bool) : decodeFlag ((Payload.flag on).toList ++ ['}']) = some on := by
  cases on with
  | true => exact if_pos rfl
  | false => rw [decodeFlag, if_neg (by decide), if_pos rfl]

theorem decodeVariant_unknown {tag : String} (h : tag ∉ variants) (value : List Char) :
    decodeVariant value tag = none := by
  unfold decodeVariant
  split
  case h_5 => rfl
  all_goals exact absurd (by decide) h

theorem compactDecoder_serdeJson : SerdeJson compactDecoder where
  setFaceExpression expr h :=
    (compactDecoder_tagged (by decide) _).trans (decodeString_quoted h)
  moveServo id angle := (compactDecoder_tagged (by decide) _).trans (decodePair_numerals id angle)
  streamAudio on := by
    rw [Payload.streamAudio, compactDecoder_tagged (by decide), decodeVariant, decodeFlag_flag]
    rfl
  streamVideo on := by
    rw [Payload.streamVideo, compactDecoder_tagged (by decide), decodeVariant, decodeFlag_flag]
    rfl
  unknown tag value h hn := by
    rw [compactDecoder_tagged h.quote_notMem, decodeVariant_unknown hn]

end SrkOS.Proof.Http
