import SrkOS.Proof.Http.Ingress
import SrkOS.Proof.Http.SerdeJson

/-!
# Payloads

With a JSON decoder that does what `SerdeJson` says, payloads are decoded
exactly, on both ways in: a servo and an angle written in decimal are these
numbers or nothing, however long they are; an expression is the one with that
name; and every command that may be sent is the one its payload carries
(`payload_exact`).
-/

namespace SrkOS.Proof.Http

open Framework SrkOS.Impl

/-- `parse` decodes the payloads of commands exactly. -/
structure DecodesExactly (parse : List UInt8 → Option Command) : Prop where
  moveServo : ∀ n a : Nat, n ≤ 255 ∧ a ≤ 180 → ∃ id angle, id.toNat = n ∧ angle.toNat = a ∧
    parse (Str.bytes (Payload.moveServo n.repr a.repr)) = some (.moveServo id angle)
  moveServo_none : ∀ n a : Nat, ¬ (n ≤ 255 ∧ a ≤ 180) →
    parse (Str.bytes (Payload.moveServo n.repr a.repr)) = none
  setFaceExpression : ∀ s, Plain s → ∀ expr,
    parse (Str.bytes (Payload.setFaceExpression s)) = some (.setFaceExpression expr) ↔
      s = expr.name
  setFaceExpression_none : ∀ s, Plain s → (∀ expr : Expression, s ≠ expr.name) →
    parse (Str.bytes (Payload.setFaceExpression s)) = none
  unknown : ∀ tag value, Plain tag → tag ∉ variants →
    parse (Str.bytes (Payload.tagged tag value)) = none
  ofCommand : ∀ cmd, InRange cmd → parse (Str.bytes (Payload.ofCommand cmd)) = some cmd

/-! ## Commands -/

theorem apiCommandToCommand_moveServo (id : UInt8) (angle : UInt16) :
    apiCommandToCommand (.moveServo (id, angle)) =
      if angle.toNat ≤ 180 then some (.moveServo id angle) else none := by
  have hle : angle > 180 ↔ ¬ angle.toNat ≤ 180 := by
    rw [Nat.not_le]
    exact UInt16.lt_iff_toNat_lt
  simp only [apiCommandToCommand, hle, ite_not]

/-- The names fit. -/
theorem length_name_le (e : Expression) : (Str.bytes e.name).length ≤ 16 := by
  cases e <;> decide

theorem plain_name (e : Expression) : Plain e.name := by
  cases e <;> decide

theorem apiCommandToCommand_name (e : Expression) (h : (Str.bytes e.name).length ≤ 16) :
    apiCommandToCommand (.setFaceExpression ⟨e.name, h⟩) = some (.setFaceExpression e) := by
  cases e <;> rfl

theorem apiCommandToCommand_noName {expr : HeaplessString 16}
    (h : ∀ e : Expression, expr.val ≠ e.name) :
    apiCommandToCommand (.setFaceExpression expr) = none := by
  simp only [apiCommandToCommand]
  split
  · exact absurd ‹_› (h .happy)
  · exact absurd ‹_› (h .sad)
  · exact absurd ‹_› (h .neutral)
  · exact absurd ‹_› (h .surprised)
  · rfl

/-! ## Payloads -/

section

variable {fromSlice : List UInt8 → Option ApiCommand} (hf : SerdeJson fromSlice)

include hf

theorem parseApiBody_moveServo (n a : Nat) :
    parseApiBody fromSlice (Str.bytes (Payload.moveServo n.repr a.repr)) =
      if n ≤ 255 ∧ a ≤ 180 then some (.moveServo (UInt8.ofNat n) (UInt16.ofNat a)) else none := by
  have hd := hf.moveServo (.ofNat n) (.ofNat a)
  rw [Numeral.text_ofNat, Numeral.text_ofNat, Numeral.value_ofNat, Numeral.value_ofNat] at hd
  rw [parseApiBody, hd]
  by_cases hfits : n < UInt8.size ∧ a < UInt16.size
  · have hiff : a ≤ 180 ↔ n ≤ 255 ∧ a ≤ 180 := (and_iff_right (Nat.le_of_lt_succ hfits.1)).symm
    rw [if_pos hfits]
    apply (apiCommandToCommand_moveServo _ _).trans
    rw [UInt16.toNat_ofNat_of_lt' hfits.2]
    exact if_congr hiff rfl rfl
  · have hn : ¬ (n ≤ 255 ∧ a ≤ 180) := by
      simp only [UInt8.size, UInt16.size] at hfits
      omega
    rw [if_neg hfits, if_neg hn]
    rfl

theorem parseApiBody_name (e : Expression) :
    parseApiBody fromSlice (Str.bytes (Payload.setFaceExpression e.name)) =
      some (.setFaceExpression e) := by
  rw [parseApiBody, hf.setFaceExpression _ (plain_name e), dif_pos (length_name_le e)]
  exact apiCommandToCommand_name e _

theorem parseApiBody_noName {s : String} (h : Plain s) (hn : ∀ e : Expression, s ≠ e.name) :
    parseApiBody fromSlice (Str.bytes (Payload.setFaceExpression s)) = none := by
  rw [parseApiBody, hf.setFaceExpression s h]
  by_cases hlen : (Str.bytes s).length ≤ 16
  · rw [dif_pos hlen]
    exact apiCommandToCommand_noName hn
  · rw [dif_neg hlen]
    rfl

theorem parseApiBody_ofCommand {cmd : Command} (h : InRange cmd) :
    parseApiBody fromSlice (Str.bytes (Payload.ofCommand cmd)) = some cmd := by
  cases cmd with
  | setFaceExpression expr => exact parseApiBody_name hf expr
  | moveServo id angle =>
    have hid : id.toNat ≤ 255 := Nat.le_of_lt_succ id.toNat_lt
    rw [Payload.ofCommand, parseApiBody_moveServo hf, if_pos ⟨hid, h⟩, UInt8.ofNat_toNat,
      UInt16.ofNat_toNat]
  | streamAudio on =>
    rw [Payload.ofCommand, parseApiBody, hf.streamAudio]
    rfl
  | streamVideo on =>
    rw [Payload.ofCommand, parseApiBody, hf.streamVideo]
    rfl

theorem parseApiBody_decodesExactly : DecodesExactly (parseApiBody fromSlice) where
  moveServo n a h := by
    refine ⟨UInt8.ofNat n, UInt16.ofNat a, ?_, ?_, ?_⟩
    · exact UInt8.toNat_ofNat_of_lt' (by rw [UInt8.size]; omega)
    · exact UInt16.toNat_ofNat_of_lt' (by rw [UInt16.size]; omega)
    · rw [parseApiBody_moveServo hf, if_pos h]
  moveServo_none n a h := by rw [parseApiBody_moveServo hf, if_neg h]
  setFaceExpression s h expr := by
    refine ⟨fun hp => ?_, fun hs => by rw [hs, parseApiBody_name hf]⟩
    by_cases hn : ∃ e : Expression, s = e.name
    · obtain ⟨e, rfl⟩ := hn
      rw [parseApiBody_name hf, Option.some.injEq, Command.setFaceExpression.injEq] at hp
      rw [hp]
    · rw [parseApiBody_noName hf h (not_exists.mp hn)] at hp
      exact absurd hp (by simp)
  setFaceExpression_none s h hn := parseApiBody_noName hf h hn
  unknown tag value h hn := by
    rw [parseApiBody, hf.unknown tag value h hn]
    rfl
  ofCommand cmd h := parseApiBody_ofCommand hf h

end

/-- With a decoder that reads payloads as `serde_json_core` does, the parsers of both
ways in decode them exactly, and a request that posts the payload of a command is
accepted as this command. -/
theorem payload_exact {fromSlice : List UInt8 → Option ApiCommand} (hf : SerdeJson fromSlice) :
    DecodesExactly (parseApiBody fromSlice) ∧ DecodesExactly (parseEspnowPayload fromSlice) ∧
    ∀ (p : CommandPost) (cmd : Command), InRange cmd → p.payload = Payload.ofCommand cmd →
      handleRequest fromSlice p.bytes = .ok (some (.commandAccepted cmd)) := by
  have hexact := parseApiBody_decodesExactly hf
  refine ⟨hexact, hexact, fun p cmd h hp => ?_⟩
  rw [handleRequest_commandPost, hp, parseEspnowPayload, hexact.ofCommand cmd h]

/-- Through the decoder of compact payloads: 180° of servo 7, an angle of `65536 + 90`, and
a name too long. -/
theorem payload_compact :
    (∃ id angle, id.toNat = 7 ∧ angle.toNat = 180 ∧
      parseApiBody compactDecoder (Str.bytes (Payload.moveServo (Nat.repr 7) (Nat.repr 180))) =
        some (.moveServo id angle)) ∧
    parseEspnowPayload compactDecoder
      (Str.bytes (Payload.moveServo (Nat.repr 7) (Nat.repr (65536 + 90)))) = none ∧
    parseApiBody compactDecoder (Str.bytes (Payload.setFaceExpression "Surprised!Surprised!")) =
      none ∧
    handleRequest compactDecoder
      (CommandPost.plain (Payload.ofCommand (.setFaceExpression .sad))).bytes =
        .ok (some (.commandAccepted (.setFaceExpression .sad))) := by
  obtain ⟨hapi, hespnow, hpost⟩ := payload_exact compactDecoder_serdeJson
  refine ⟨hapi.moveServo 7 180 (by decide), hespnow.moveServo_none 7 (65536 + 90) (by decide),
    hapi.setFaceExpression_none _ (by decide) fun expr => ?_, hpost _ _ trivial rfl⟩
  cases expr <;> decide

end SrkOS.Proof.Http
