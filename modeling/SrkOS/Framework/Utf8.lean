import SrkOS.Framework.Search
import Mathlib.Data.List.Basic

/-!
# UTF-8 and ASCII

The UTF-8 encoding of a text, `utf8`. An ASCII character is encoded as its own
byte, which occurs in no other character's encoding (`mem_encodeChar`). So bytes
can be searched for ASCII text: an occurrence in the encoding is the encoding of
one in the text (`utf8_split`), and searching commutes with encoding
(`splitFirst_utf8`, `upTo_utf8`, `after_utf8`).
-/

namespace Framework

/-- The UTF-8 encoding of a text. -/
def utf8 (cs : List Char) : List UInt8 := cs.flatMap String.utf8EncodeChar

/-- The characters encoded as one byte. -/
def Ascii (c : Char) : Prop := c.toNat < 0x80

instance : DecidablePred Ascii := fun c => inferInstanceAs (Decidable (c.toNat < 0x80))

theorem utf8_cons (c : Char) (cs : List Char) : utf8 (c :: cs) = String.utf8EncodeChar c ++ utf8 cs :=
  List.flatMap_cons

theorem utf8_append (cs ds : List Char) : utf8 (cs ++ ds) = utf8 cs ++ utf8 ds :=
  List.flatMap_append

theorem utf8_isInfix {cs ds : List Char} (h : cs <:+: ds) : utf8 cs <:+: utf8 ds := by
  obtain ⟨pre, post, rfl⟩ := h
  exact ⟨utf8 pre, utf8 post, by rw [utf8_append, utf8_append]⟩

theorem utf8_isSuffix {cs ds : List Char} (h : cs <:+ ds) : utf8 cs <:+ utf8 ds := by
  obtain ⟨pre, rfl⟩ := h
  exact ⟨utf8 pre, by rw [utf8_append]⟩

theorem utf8_eq_nil {cs : List Char} (h : utf8 cs = []) : cs = [] := by
  cases cs with
  | nil => rfl
  | cons c cs =>
    rw [utf8_cons, List.append_eq_nil_iff] at h
    exact absurd h.1 String.utf8EncodeChar_ne_nil

/-! ## Characters -/

theorem utf8EncodeChar_ascii {c : Char} (h : Ascii c) : String.utf8EncodeChar c = [c.toUInt8] := by
  have hv : c.val.toNat ≤ 0x7f := Nat.le_of_lt_succ h
  simp only [String.utf8EncodeChar, hv, if_true]
  rfl

theorem le_toNat_ofNat {n k m : Nat} (hk : k < n) (hm : 0x80 ≤ m) (hn : n + m ≤ 0x100) :
    0x80 ≤ (UInt8.ofNat (k + m)).toNat := by
  rw [UInt8.toNat_ofNat']
  omega

/-- The bytes of the other characters are not ASCII: they are all a few bits
added to the mark of a lead or of a continuation byte. -/
theorem le_of_mem_encodeChar {c : Char} (h : ¬ Ascii c) {b : UInt8}
    (hb : b ∈ String.utf8EncodeChar c) : 0x80 ≤ b.toNat := by
  have hv : ¬ c.val.toNat ≤ 0x7f := fun hle => h (Nat.lt_succ_of_le hle)
  have hcont : ∀ v : Nat, 0x80 ≤ (UInt8.ofNat (v % 0x40 + 0x80)).toNat := fun v =>
    le_toNat_ofNat (Nat.mod_lt v (by decide)) (by decide) (by decide)
  simp only [String.utf8EncodeChar, hv, if_false] at hb
  split at hb
  · simp only [List.mem_cons, List.not_mem_nil, or_false] at hb
    rcases hb with rfl | rfl
    · exact le_toNat_ofNat (Nat.mod_lt _ (show 0 < 0x20 by decide)) (by decide) (by decide)
    · exact hcont _
  · split at hb
    · simp only [List.mem_cons, List.not_mem_nil, or_false] at hb
      rcases hb with rfl | rfl | rfl
      · exact le_toNat_ofNat (Nat.mod_lt _ (show 0 < 0x10 by decide)) (by decide) (by decide)
      · exact hcont _
      · exact hcont _
    · simp only [List.mem_cons, List.not_mem_nil, or_false] at hb
      rcases hb with rfl | rfl | rfl | rfl
      · exact le_toNat_ofNat (Nat.mod_lt _ (show 0 < 0x08 by decide)) (by decide) (by decide)
      · exact hcont _
      · exact hcont _
      · exact hcont _

theorem toNat_toUInt8 {c : Char} (h : Ascii c) : c.toUInt8.toNat = c.toNat := by
  have hlt : c.toNat < 0x80 := h
  show (UInt8.ofNat c.toNat).toNat = c.toNat
  rw [UInt8.toNat_ofNat']
  omega

/-- An ASCII character's byte occurs in no other character's encoding. -/
theorem mem_encodeChar {a c : Char} (ha : Ascii a) : a.toUInt8 ∈ String.utf8EncodeChar c ↔ c = a := by
  refine ⟨fun hm => ?_, fun hc => ?_⟩
  · by_cases hc : Ascii c
    · rw [utf8EncodeChar_ascii hc, List.mem_singleton] at hm
      have hn : c.toNat = a.toNat := by rw [← toNat_toUInt8 hc, ← hm, toNat_toUInt8 ha]
      exact Char.ext (UInt32.toNat_inj.mp hn)
    · have hb := le_of_mem_encodeChar hc hm
      have ha' : a.toNat < 0x80 := ha
      rw [toNat_toUInt8 ha] at hb
      omega
  · rw [hc, utf8EncodeChar_ascii ha]
    exact List.mem_singleton_self _

theorem mem_utf8 {a : Char} (ha : Ascii a) {cs : List Char} : a.toUInt8 ∈ utf8 cs ↔ a ∈ cs := by
  rw [utf8, List.mem_flatMap]
  refine ⟨fun ⟨c, hc, hm⟩ => ?_, fun h => ⟨a, h, (mem_encodeChar ha).mpr rfl⟩⟩
  rw [← (mem_encodeChar ha).mp hm]
  exact hc

theorem upTo_utf8 {a : Char} (ha : Ascii a) (cs : List Char) :
    upTo a.toUInt8 (utf8 cs) = utf8 (upTo a cs) := by
  induction cs with
  | nil => rfl
  | cons c cs ih =>
    rw [utf8_cons, upTo_cons]
    by_cases hc : c = a
    · subst hc
      rw [if_pos rfl, utf8EncodeChar_ascii ha, List.singleton_append, upTo_cons, if_pos rfl]
      rfl
    · rw [if_neg hc, upTo_append_of_notMem fun hm => hc ((mem_encodeChar ha).mp hm), ih, utf8_cons]

theorem after_utf8 {a : Char} (ha : Ascii a) (cs : List Char) :
    after a.toUInt8 (utf8 cs) = utf8 (after a cs) := by
  induction cs with
  | nil => rfl
  | cons c cs ih =>
    rw [utf8_cons, after_cons]
    by_cases hc : c = a
    · subst hc
      rw [if_pos rfl, utf8EncodeChar_ascii ha, List.singleton_append, after_cons, if_pos rfl]
    · rw [if_neg hc, after_append_of_notMem fun hm => hc ((mem_encodeChar ha).mp hm), ih]

/-! ## Texts -/

/-- Where an ASCII character's byte occurs, the character does. -/
theorem utf8_cut {a : Char} (ha : Ascii a) {cs : List Char} {pre post : List UInt8}
    (h : utf8 cs = pre ++ a.toUInt8 :: post) :
    ∃ pre' post', cs = pre' ++ a :: post' ∧ utf8 pre' = pre ∧ utf8 post' = post := by
  induction cs generalizing pre with
  | nil =>
    have hn : pre ++ a.toUInt8 :: post = [] := h.symm
    rw [List.append_eq_nil_iff] at hn
    exact absurd hn.2 (List.cons_ne_nil _ _)
  | cons c cs ih =>
    rw [utf8_cons, List.append_eq_append_iff] at h
    rcases h with ⟨pre', rfl, hcs⟩ | ⟨enc, henc, hcs⟩
    · obtain ⟨p, q, rfl, rfl, rfl⟩ := ih hcs
      exact ⟨c :: p, q, rfl, utf8_cons c p, rfl⟩
    · cases enc with
      | nil =>
        obtain ⟨p, q, rfl, hp, rfl⟩ := @ih [] hcs.symm
        refine ⟨c :: p, q, rfl, ?_, rfl⟩
        rw [utf8_cons, hp, henc, List.append_nil, List.append_nil]
      | cons b enc =>
        -- the byte is in the first character's encoding, so it is that character's
        rw [List.cons_append, List.cons.injEq] at hcs
        obtain ⟨rfl, rfl⟩ := hcs
        have hc : c = a := (mem_encodeChar ha).mp (by rw [henc]; simp)
        subst hc
        rw [utf8EncodeChar_ascii ha] at henc
        rcases List.append_eq_singleton_iff.mp henc.symm with ⟨rfl, he⟩ | ⟨-, he⟩
        · rw [(List.cons.inj he).2]
          exact ⟨[], cs, rfl, rfl, rfl⟩
        · exact absurd he (List.cons_ne_nil _ _)

/-- A text that begins with the bytes of ASCII characters begins with them. -/
theorem utf8_strip {pat : List Char} (hp : ∀ a ∈ pat, Ascii a) {cs : List Char}
    {post : List UInt8} (h : utf8 cs = utf8 pat ++ post) :
    ∃ post', cs = pat ++ post' ∧ utf8 post' = post := by
  induction pat generalizing cs with
  | nil => exact ⟨cs, rfl, h⟩
  | cons a pat ih =>
    obtain ⟨ha, hp⟩ := List.forall_mem_cons.mp hp
    rw [utf8_cons, utf8EncodeChar_ascii ha, List.append_assoc, List.singleton_append,
      ← List.nil_append (_ :: _)] at h
    obtain ⟨p, q, rfl, hnil, hq⟩ := utf8_cut ha h
    obtain ⟨post', rfl, hpost⟩ := ih hp hq
    rw [utf8_eq_nil hnil]
    exact ⟨post', rfl, hpost⟩

/-- Where the bytes of ASCII characters occur, the characters do. -/
theorem utf8_split {pat : List Char} (h0 : pat ≠ []) (hp : ∀ a ∈ pat, Ascii a) {cs : List Char}
    {pre post : List UInt8} (h : utf8 cs = pre ++ utf8 pat ++ post) :
    ∃ pre' post', cs = pre' ++ pat ++ post' ∧ utf8 pre' = pre ∧ utf8 post' = post := by
  cases pat with
  | nil => exact absurd rfl h0
  | cons a pat =>
    obtain ⟨ha, hp⟩ := List.forall_mem_cons.mp hp
    rw [utf8_cons, utf8EncodeChar_ascii ha, List.append_assoc, List.append_assoc,
      List.singleton_append] at h
    obtain ⟨p, q, rfl, rfl, hq⟩ := utf8_cut ha h
    obtain ⟨post', rfl, hpost⟩ := utf8_strip hp hq
    exact ⟨p, post', by rw [List.append_assoc, List.cons_append], rfl, hpost⟩

theorem infix_utf8_iff {pat : List Char} (h0 : pat ≠ []) (hp : ∀ a ∈ pat, Ascii a)
    {cs : List Char} : utf8 pat <:+: utf8 cs ↔ pat <:+: cs := by
  refine ⟨fun ⟨pre, post, he⟩ => ?_, utf8_isInfix⟩
  obtain ⟨pre', post', hcs, -, -⟩ := utf8_split h0 hp he.symm
  exact ⟨pre', post', hcs.symm⟩

/-- Searching for ASCII text commutes with encoding. -/
theorem splitFirst_utf8 {pat : List Char} (h0 : pat ≠ []) (hp : ∀ a ∈ pat, Ascii a)
    (cs : List Char) :
    splitFirst (utf8 pat) (utf8 cs) = (splitFirst pat cs).map fun p => (utf8 p.1, utf8 p.2) := by
  cases hs : splitFirst pat cs with
  | none =>
    rw [Option.map_none, splitFirst_eq_none, infix_utf8_iff h0 hp]
    exact splitFirst_eq_none.mp hs
  | some p =>
    obtain ⟨pre, post⟩ := p
    obtain ⟨hcs, hmin⟩ := splitFirst_eq_some.mp hs
    rw [Option.map_some, splitFirst_eq_some]
    refine ⟨by rw [hcs, utf8_append, utf8_append], fun pre' post' he => ?_⟩
    obtain ⟨p', q', hcs', rfl, -⟩ := utf8_split h0 hp he
    -- the first occurrence in the text is before this one, also in bytes
    have hpre : pre <+: cs := ⟨pat ++ post, by rw [hcs, List.append_assoc]⟩
    have hp' : p' <+: cs := ⟨pat ++ q', by rw [hcs', List.append_assoc]⟩
    obtain ⟨t, rfl⟩ := List.prefix_of_prefix_length_le hpre hp' (hmin p' q' hcs')
    rw [utf8_append, List.length_append]
    exact Nat.le_add_right _ _

theorem firstSplit_utf8 {pat : List Char} (h0 : pat ≠ []) (hp : ∀ a ∈ pat, Ascii a)
    {cs : List Char} {pre post : List UInt8} :
    FirstSplit (utf8 pat) pre post (utf8 cs) ↔
      ∃ pre' post', splitFirst pat cs = some (pre', post') ∧ utf8 pre' = pre ∧
        utf8 post' = post := by
  rw [← splitFirst_eq_some, splitFirst_utf8 h0 hp, Option.map_eq_some_iff]
  simp only [Prod.exists, Prod.mk.injEq]

/-! ## Prefixes -/

/-- No character's encoding is the beginning of another one's. -/
theorem utf8EncodeChar_append_inj {c d : Char} {bs bs' : List UInt8}
    (h : String.utf8EncodeChar c ++ bs = String.utf8EncodeChar d ++ bs') : c = d ∧ bs = bs' := by
  have hdecode : ∀ (c : Char) (bs : List UInt8),
      (String.utf8EncodeChar c ++ bs).toByteArray.utf8DecodeChar? 0 = some c := by
    intro c bs
    rw [List.toByteArray_append]
    exact ByteArray.utf8DecodeChar?_utf8EncodeChar_append
  have hc := hdecode c bs
  rw [h, hdecode d bs', Option.some.injEq] at hc
  subst hc
  exact ⟨rfl, List.append_cancel_left h⟩

/-- A text whose encoding begins another one's begins that text. -/
theorem utf8_isPrefix_iff {cs ds : List Char} : utf8 cs <+: utf8 ds ↔ cs <+: ds := by
  refine ⟨fun h => ?_, fun ⟨t, h⟩ => ⟨utf8 t, by rw [← h, utf8_append]⟩⟩
  obtain ⟨bs, h⟩ := h
  induction cs generalizing ds with
  | nil => exact List.nil_prefix
  | cons c cs ih =>
    cases ds with
    | nil =>
      rw [utf8_cons, List.append_assoc] at h
      exact absurd (List.append_eq_nil_iff.mp h).1 String.utf8EncodeChar_ne_nil
    | cons d ds =>
      rw [utf8_cons, utf8_cons, List.append_assoc] at h
      obtain ⟨rfl, hcs⟩ := utf8EncodeChar_append_inj h
      exact List.cons_prefix_cons.mpr ⟨rfl, ih hcs⟩

/-! ## Decoding -/

/-- The bytes are the encoding of some text. -/
def IsUtf8 (bytes : List UInt8) : Prop := ∃ cs, utf8 cs = bytes

theorem utf8_injective {cs ds : List Char} (h : utf8 cs = utf8 ds) : cs = ds := by
  have hbytes : (String.ofList cs).toByteArray = (String.ofList ds).toByteArray := by
    rw [String.toByteArray_ofList, String.toByteArray_ofList]
    exact congrArg List.toByteArray h
  have hs := congrArg String.toList (String.toByteArray_inj.mp hbytes)
  rwa [String.toList_ofList, String.toList_ofList] at hs

end Framework
