import SrkOS.Impl.Http

/-!
# Parsing a request

`parse_request` searches the text for the end of the request line and the bytes
for the end of the headers; on the encoding of a text both find what a search of
the text finds. So it is a function of the text, `requestOf`, and never panics
(`parseRequest_utf8`, `parseRequest_invalid`).
-/

namespace SrkOS.Proof.Http

open Framework SrkOS.Impl

def crlf : List Char := ['\r', '\n']

/-- The text after the first empty line. -/
def bodyOf (text : List Char) : List Char :=
  match splitFirst (crlf ++ crlf) text with
  | some (_, body) => body
  | none => []

/-- What `parse_request` makes of a text. -/
def requestOf (text : List Char) : Option RequestParts :=
  match splitFirst crlf text with
  | none => none
  | some (line, _) =>
    if ' ' ∈ line then
      some
        { method := Method.ofStr (String.ofList (upTo ' ' line))
          path := String.ofList (upTo '?' (upTo ' ' (after ' ' line)))
          body := utf8 (bodyOf text) }
    else none

theorem toList_crlf : "\r\n".toList = crlf := String.toList_ofList

theorem toList_crlf_crlf : "\r\n\r\n".toList = crlf ++ crlf := String.toList_ofList

theorem bytes_crlf : Str.bytes "\r\n" = utf8 crlf := by rw [Str.bytes, toList_crlf]

theorem bytes_crlf_crlf : Str.bytes "\r\n\r\n" = utf8 (crlf ++ crlf) := by
  rw [Str.bytes, toList_crlf_crlf]

theorem crlf_ascii : ∀ c ∈ crlf, Ascii c :=
  List.forall_mem_cons.mpr ⟨by decide, List.forall_mem_singleton.mpr (by decide)⟩

theorem crlf_crlf_ascii : ∀ c ∈ crlf ++ crlf, Ascii c :=
  List.forall_mem_append.mpr ⟨crlf_ascii, crlf_ascii⟩

/-! ## The body -/

/-- The body is after the first CR LF CR LF of the bytes. -/
theorem findBodyStart_eq (raw : List UInt8) :
    findBodyStart raw = (splitFirst (utf8 (crlf ++ crlf)) raw).map fun p => p.1.length + 4 := by
  have hlen : (utf8 (crlf ++ crlf)).length = 4 := by decide
  have h0 : utf8 (crlf ++ crlf) ≠ [] := fun h => by simp [h] at hlen
  have hidx := findIdx?_windows h0 raw
  rw [hlen] at hidx
  rw [findBodyStart, bytes_crlf_crlf, hidx, Option.map_map]
  rfl

theorem findBodyStart_utf8 (text : List Char) :
    findBodyStart (utf8 text) =
      (splitFirst (crlf ++ crlf) text).map fun p => (utf8 p.1).length + 4 := by
  rw [findBodyStart_eq, splitFirst_utf8 (by decide) crlf_crlf_ascii, Option.map_map]
  rfl

/-- The body is what is after the offset found. -/
theorem bodyFrom_utf8 (text : List Char) : bodyFrom (utf8 text) = .ok (utf8 (bodyOf text)) := by
  rw [bodyFrom, findBodyStart_utf8, bodyOf]
  cases hs : splitFirst (crlf ++ crlf) text with
  | none => rfl
  | some p =>
    obtain ⟨pre, body⟩ := p
    have htext := (splitFirst_eq_some.mp hs).1
    have hlen : (utf8 pre).length + 4 = (utf8 (pre ++ (crlf ++ crlf))).length := by
      rw [utf8_append, List.length_append]
      rfl
    have hle : (utf8 (pre ++ (crlf ++ crlf))).length ≤ (utf8 text).length := by
      rw [htext, utf8_append _ body, List.length_append]
      exact Nat.le_add_right _ _
    simp only [Option.map_some, hlen, sliceFrom, if_pos hle]
    rw [htext, utf8_append _ body, List.drop_left]

/-! ## The request -/

/-- The path of a request target. -/
theorem head?_split_path (target : List Char) :
    ((Str.split (String.ofList target) '?').head?.getD (String.ofList target)) =
      String.ofList (upTo '?' target) := by
  rw [Str.split, String.toList_ofList, List.head?_map, head?_splitOn]
  rfl

/-- On the encoding of a text, `parse_request` does what `requestOf` does. -/
theorem parseRequest_utf8 (text : List Char) : parseRequest (utf8 text) = .ok (requestOf text) := by
  unfold parseRequest requestOf
  rw [fromUtf8_utf8, bodyFrom_utf8]
  simp only [Str.find, String.toList_ofList, toList_crlf]
  cases hs : splitFirst crlf text with
  | none => rfl
  | some p =>
    obtain ⟨line, rest⟩ := p
    have hline : Str.sliceTo (String.ofList text) (utf8 line).length = .ok (String.ofList line) := by
      rw [(splitFirst_eq_some.mp hs).1, List.append_assoc]
      exact sliceTo_append line (crlf ++ rest)
    simp only [Option.map_some, hline, bind, Except.bind, Str.splitn, String.toList_ofList,
      List.getElem?_map, getElem?_splitn_zero, getElem?_splitn_one]
    by_cases hsp : ' ' ∈ line
    · simp only [if_pos hsp, Option.map_some, head?_split_path]
      rfl
    · simp only [if_neg hsp, Option.map_none]
      rfl

theorem parseRequest_invalid {raw : List UInt8} (h : ¬ IsUtf8 raw) : parseRequest raw = .ok none := by
  rw [parseRequest, fromUtf8_eq_none.mpr h]
  rfl

/-- What is parsed is the request of a text. -/
theorem exists_requestOf {raw : List UInt8} {req : RequestParts}
    (h : parseRequest raw = .ok (some req)) :
    ∃ text, utf8 text = raw ∧ requestOf text = some req := by
  by_cases hu : IsUtf8 raw
  · obtain ⟨text, rfl⟩ := hu
    rw [parseRequest_utf8, Except.ok.injEq] at h
    exact ⟨text, rfl, h⟩
  · simp [parseRequest_invalid hu] at h

theorem body_of_requestOf {text : List Char} {req : RequestParts}
    (h : requestOf text = some req) : req.body = utf8 (bodyOf text) := by
  unfold requestOf at h
  split at h
  · simp at h
  · rw [Option.ite_none_right_eq_some, Option.some.injEq] at h
    rw [← h.2]

end SrkOS.Proof.Http
