import SrkOS.Proof.Http.Routes
import SrkOS.Proof.Http.Truncate

/-!
# Safety of parsing

`parse_request` slices the text at the offset of the first CR LF and the bytes
after the first CR LF CR LF. Both offsets are in bounds and at characters,
whatever the bytes are (`parseRequest_safe`), since the bytes of CR and LF are
those of no other character; and what it returns is UTF-8 again.
-/

namespace SrkOS.Proof.Http

open Framework SrkOS.Impl

/-- Parsing `raw` is safe. -/
structure Safe (raw : List UInt8) : Prop where
  /-- The offset of the first CR LF is at a character, so that slicing there does
  not panic. -/
  lineEnd : ∀ text, fromUtf8 raw = some text → Str.bytes "\r\n" <:+: raw →
    ∃ lineEnd line rest, Str.find text "\r\n" = some lineEnd ∧
      FirstSplit (Str.bytes "\r\n") line rest raw ∧ line.length = lineEnd ∧
      Str.IsCharBoundary text lineEnd ∧
      ∃ requestLine, Str.sliceTo text lineEnd = .ok requestLine
  /-- The body's offset is in bounds, and after the end of the first line by the four
  bytes of CR LF CR LF at least. -/
  bodyStart : ∀ off, findBodyStart raw = some off →
    off ≤ raw.length ∧ sliceFrom raw off = .ok (raw.drop off) ∧
    ∀ line rest, FirstSplit (Str.bytes "\r\n") line rest raw → line.length + 4 ≤ off
  no_panic : ∃ r, parseRequest raw = .ok r
  /-- The body is the end of `raw`, and UTF-8. -/
  body : ∀ req, parseRequest raw = .ok (some req) → req.body <:+ raw ∧ IsUtf8 req.body
  /-- The path is part of the first line, with no space, `?` or CR LF in it. -/
  path : ∀ req, parseRequest raw = .ok (some req) →
    ∃ line rest, FirstSplit (Str.bytes "\r\n") line rest raw ∧ Str.bytes req.path <:+: line ∧
      ' ' ∉ req.path.toList ∧ '?' ∉ req.path.toList ∧
      ¬ Str.bytes "\r\n" <:+: Str.bytes req.path

/-! ## Offsets -/

/-- A find that has found something gives an offset at a character. -/
theorem isCharBoundary_of_split {text : String} {line rest : List Char}
    (h : text.toList = line ++ rest) : Str.IsCharBoundary text (utf8 line).length :=
  ⟨line, rest, h, rfl⟩

theorem lineEnd_safe {raw : List UInt8} {text : String} (ht : fromUtf8 raw = some text)
    (hc : Str.bytes "\r\n" <:+: raw) :
    ∃ lineEnd line rest, Str.find text "\r\n" = some lineEnd ∧
      FirstSplit (Str.bytes "\r\n") line rest raw ∧ line.length = lineEnd ∧
      Str.IsCharBoundary text lineEnd ∧
      ∃ requestLine, Str.sliceTo text lineEnd = .ok requestLine := by
  have hraw : utf8 text.toList = raw := fromUtf8_eq_some.mp ht
  rw [← hraw, infix_crlf_iff] at hc
  cases hs : splitFirst crlf text.toList with
  | none => exact absurd hc (splitFirst_eq_none.mp hs)
  | some p =>
    obtain ⟨line, rest⟩ := p
    have htext : text.toList = line ++ (crlf ++ rest) := by
      rw [(splitFirst_eq_some.mp hs).1, List.append_assoc]
    have hfind : Str.find text "\r\n" = some (utf8 line).length := by
      simp only [Str.find, toList_crlf, hs, Option.map_some]
    have hfirst : FirstSplit (Str.bytes "\r\n") (utf8 line) (utf8 rest) raw := by
      rw [← hraw]
      exact firstSplit_crlf.mpr ⟨line, rest, hs, rfl, rfl⟩
    have hslice : Str.sliceTo text (utf8 line).length = .ok (String.ofList line) := by
      rw [← String.ofList_toList (s := text), htext]
      exact sliceTo_append line (crlf ++ rest)
    exact ⟨_, _, _, hfind, hfirst, rfl, isCharBoundary_of_split htext, _, hslice⟩

theorem bodyStart_safe {raw : List UInt8} {off : Nat} (h : findBodyStart raw = some off) :
    off ≤ raw.length ∧ sliceFrom raw off = .ok (raw.drop off) ∧
      ∀ line rest, FirstSplit (Str.bytes "\r\n") line rest raw → line.length + 4 ≤ off := by
  rw [findBodyStart_eq, Option.map_eq_some_iff] at h
  obtain ⟨⟨pre, post⟩, hs, rfl⟩ := h
  have hraw : raw = pre ++ utf8 (crlf ++ crlf) ++ post := (splitFirst_eq_some.mp hs).1
  have hlen : (utf8 (crlf ++ crlf)).length = 4 := by decide
  have hle : pre.length + 4 ≤ raw.length := by
    rw [hraw]
    simp only [List.length_append, hlen]
    omega
  refine ⟨hle, by rw [sliceFrom, if_pos hle], fun line rest hl => ?_⟩
  -- the first CR LF is not after the one that CR LF CR LF begins with
  have hcrlf : raw = pre ++ Str.bytes "\r\n" ++ (utf8 crlf ++ post) := by
    rw [hraw, utf8_append, bytes_crlf]
    simp only [List.append_assoc]
  have := hl.2 pre _ hcrlf
  simp only
  omega

/-! ## What is returned -/

section

variable {text : List Char} {req : RequestParts}

theorem bodyOf_isSuffix (text : List Char) : bodyOf text <:+ text := by
  unfold bodyOf
  cases hs : splitFirst (crlf ++ crlf) text with
  | none => exact List.nil_suffix
  | some p => exact ⟨_, (splitFirst_eq_some.mp hs).1.symm⟩

/-- The path is part of the first line. -/
theorem path_of_requestOf (h : requestOf text = some req) :
    ∃ line rest, splitFirst crlf text = some (line, rest) ∧ req.path.toList <:+: line ∧
      ' ' ∉ req.path.toList ∧ '?' ∉ req.path.toList := by
  unfold requestOf at h
  cases hs : splitFirst crlf text with
  | none => simp [hs] at h
  | some p =>
    obtain ⟨line, rest⟩ := p
    simp only [hs, Option.ite_none_right_eq_some, Option.some.injEq] at h
    obtain ⟨-, rfl⟩ := h
    refine ⟨line, rest, rfl, ?_⟩
    simp only [String.toList_ofList]
    have hpath := upTo_isPrefix '?' (upTo ' ' (after ' ' line))
    have htarget := upTo_isPrefix ' ' (after ' ' line)
    have hafter := after_isSuffix ' ' line
    refine ⟨(hpath.trans htarget).isInfix.trans hafter.isInfix, fun hm => ?_, notMem_upTo _ _⟩
    exact notMem_upTo ' ' _ (hpath.subset hm)

end

/-- Parsing never panics, and what it returns is UTF-8 and where it should be. -/
theorem parseRequest_safe (raw : List UInt8) : Safe raw where
  lineEnd _ ht hc := lineEnd_safe ht hc
  bodyStart _ h := bodyStart_safe h
  no_panic := by
    by_cases hu : IsUtf8 raw
    · obtain ⟨text, rfl⟩ := hu
      exact ⟨_, parseRequest_utf8 text⟩
    · exact ⟨_, parseRequest_invalid hu⟩
  body req h := by
    obtain ⟨text, rfl, hr⟩ := exists_requestOf h
    rw [body_of_requestOf hr]
    exact ⟨utf8_isSuffix (bodyOf_isSuffix text), bodyOf text, rfl⟩
  path req h := by
    obtain ⟨text, rfl, hr⟩ := exists_requestOf h
    obtain ⟨line, rest, hs, hpath, hsp, hqm⟩ := path_of_requestOf hr
    have hline : FirstSplit (Str.bytes "\r\n") (utf8 line) (utf8 rest) (utf8 text) :=
      firstSplit_crlf.mpr ⟨line, rest, hs, rfl, rfl⟩
    have hbytes : Str.bytes req.path <:+: utf8 line := utf8_isInfix hpath
    have h0 : Str.bytes "\r\n" ≠ [] := by
      rw [bytes_crlf]
      decide
    exact ⟨_, _, hline, hbytes, hsp, hqm, fun hc => hline.not_infix h0 (hc.trans hbytes)⟩

end SrkOS.Proof.Http
