import SrkOS.Proof.Http.Render
import SrkOS.Proof.Http.Safety

/-!
# Canonical requests

What `parse_request` can return (`Parsable`), and a request with nothing in it that
need not be there, from which it returns it (`canonical`). So parsing, then rendering
canonically, loses the query string, the version and the headers, and nothing that the
server goes by (`parseRequest_range`).
-/

namespace SrkOS.Proof.Http

open Framework SrkOS.Impl

/-- A method's token; for other methods than `GET` and `POST`, an empty one. -/
def tokenOf : Method → String
  | .get => "GET"
  | .post => "POST"
  | .other => ""

/-- The request line, an empty line, and the body. -/
def canonical (req : RequestParts) : List UInt8 :=
  utf8 (requestLine (tokenOf req.method) req.path none "" ++ (crlf ++ crlf)) ++ req.body

/-- The path holds no space, no `?` and no CR LF, and the body is UTF-8. -/
structure Parsable (req : RequestParts) : Prop where
  no_space : ' ' ∉ req.path.toList
  no_query : '?' ∉ req.path.toList
  one_line : ¬ crlf <:+: req.path.toList
  utf8_body : IsUtf8 req.body

theorem ofStr_tokenOf (method : Method) : Method.ofStr (tokenOf method) = method := by
  cases method <;> rfl

theorem notMem_tokenOf (method : Method) :
    ' ' ∉ (tokenOf method).toList ∧ '\r' ∉ (tokenOf method).toList := by
  cases method with
  | get =>
    rw [tokenOf, show "GET".toList = ['G', 'E', 'T'] from String.toList_ofList]
    decide
  | post =>
    rw [tokenOf, show "POST".toList = ['P', 'O', 'S', 'T'] from String.toList_ofList]
    decide
  | other => simp [tokenOf]

/-- What is returned is parsable. -/
theorem parsable_of_requestOf {text : List Char} {req : RequestParts}
    (h : requestOf text = some req) : Parsable req := by
  obtain ⟨line, rest, hs, hpath, hsp, hqm⟩ := path_of_requestOf h
  have hfirst := firstSplit_of_splitFirst hs
  have hline : ¬ crlf <:+: line := hfirst.not_infix (by decide)
  exact ⟨hsp, hqm, fun hc => hline (hc.trans hpath), bodyOf text, (body_of_requestOf h).symm⟩

namespace Parsable

variable {req : RequestParts}

/-- No line ends within the canonical request line. -/
theorem line_ok (h : Parsable req) :
    ¬ crlf <:+: requestLine (tokenOf req.method) req.path none "" := by
  intro hi
  rcases infix_append_cons (by decide) (by decide) hi with hi | hi
  · exact not_infix_of_notMem (notMem_tokenOf req.method).2 hi
  · rcases infix_append_cons (by decide) (by decide) hi with hi | hi
    · rw [target, queryText, List.append_nil] at hi
      exact h.one_line hi
    · exact absurd (hi.subset List.mem_cons_self) (by simp)

theorem no_query_ok : ∀ q ∈ (none : Option String), ' ' ∉ q.toList := by simp

theorem no_headers_ok : ∀ h ∈ ([] : List String), h ≠ "" ∧ ¬ crlf <:+: h.toList := by simp

/-- The canonical request, as a client would write it. -/
def rendering (h : Parsable req) (body : String) : Rendering where
  method := tokenOf req.method
  path := req.path
  query := none
  version := ""
  headers := []
  body := body
  method_ok := (notMem_tokenOf req.method).1
  path_ok := ⟨h.no_space, h.no_query⟩
  query_ok := no_query_ok
  line_ok := h.line_ok
  headers_ok := no_headers_ok

theorem bytes_rendering (h : Parsable req) {body : String} (hb : Str.bytes body = req.body) :
    (h.rendering body).bytes = canonical req := by
  rw [canonical, ← hb, Str.bytes, ← utf8_append, Rendering.bytes, Rendering.text, List.append_assoc,
    List.append_assoc, List.append_assoc]
  rfl

/-- From a canonical request, what it was made of is returned. -/
theorem parse_canonical (h : Parsable req) : parseRequest (canonical req) = .ok (some req) := by
  obtain ⟨cs, hcs⟩ := h.utf8_body
  have hb : Str.bytes (String.ofList cs) = req.body := by rw [bytes_ofList, hcs]
  rw [← h.bytes_rendering hb, Rendering.parseRequest_bytes, rendering, ofStr_tokenOf, hb]

end Parsable

/-- What parsing can return is what can be rendered canonically and parsed back. And a
request rendered canonically has, for every JSON decoder, the outcome it had. -/
theorem parseRequest_range (req : RequestParts) :
    ((∃ raw, parseRequest raw = .ok (some req)) ↔ Parsable req) ∧
    (parseRequest (canonical req) = .ok (some req) ↔ Parsable req) ∧
    ∀ fromSlice raw, parseRequest raw = .ok (some req) →
      handleRequest fromSlice (canonical req) = handleRequest fromSlice raw := by
  have hp : ∀ raw, parseRequest raw = .ok (some req) → Parsable req := by
    intro raw h
    obtain ⟨text, -, htext⟩ := exists_requestOf h
    exact parsable_of_requestOf htext
  refine ⟨⟨fun ⟨raw, h⟩ => hp raw h, fun h => ⟨_, h.parse_canonical⟩⟩,
    ⟨hp _, Parsable.parse_canonical⟩, fun fromSlice raw h => ?_⟩
  rw [handleRequest, handleRequest, (hp raw h).parse_canonical, h]

end SrkOS.Proof.Http
