import SrkOS.Proof.Http.Parse

/-!
# Rendering a request

A request as a client writes it (`Rendering`): a request line, headers, an empty
line and a body. `parseRequest_bytes`: parsing it gives back its method, path and
body, whatever its query string, version and headers are. The first CR LF ends
the request line and the first empty line the headers, since no header is empty;
the body may hold both.
-/

namespace SrkOS.Proof.Http

open Framework SrkOS.Impl

/-- A query string, with the `?` before it. -/
def queryText : Option String → List Char
  | some q => '?' :: q.toList
  | none => []

def target (path : String) (query : Option String) : List Char := path.toList ++ queryText query

def requestLine (method path : String) (query : Option String) (version : String) : List Char :=
  method.toList ++ ' ' :: (target path query ++ ' ' :: version.toList)

structure Rendering where
  method : String
  path : String
  query : Option String
  version : String
  headers : List String
  body : String
  method_ok : ' ' ∉ method.toList
  path_ok : ' ' ∉ path.toList ∧ '?' ∉ path.toList
  query_ok : ∀ q ∈ query, ' ' ∉ q.toList
  line_ok : ¬ crlf <:+: requestLine method path query version
  headers_ok : ∀ h ∈ headers, h ≠ "" ∧ ¬ crlf <:+: h.toList

namespace Rendering

def line (r : Rendering) : List Char := requestLine r.method r.path r.query r.version

def text (r : Rendering) : List Char :=
  r.line ++ crlf ++ ((r.headers.map String.toList).flatMap (· ++ crlf) ++ (crlf ++ r.body.toList))

def bytes (r : Rendering) : List UInt8 := utf8 r.text

theorem cr_ne_lf : '\r' ≠ '\n' := by decide

theorem splitFirst_text (r : Rendering) : ∃ rest, splitFirst crlf r.text = some (r.line, rest) :=
  ⟨_, splitFirst_line cr_ne_lf r.line_ok _⟩

theorem bodyOf_text (r : Rendering) : bodyOf r.text = r.body.toList := by
  have hheaders : ∀ l ∈ r.headers.map String.toList, l ≠ [] ∧ ¬ crlf <:+: l := by
    intro l hl
    obtain ⟨h, hh, rfl⟩ := List.mem_map.mp hl
    obtain ⟨hne, hc⟩ := r.headers_ok h hh
    exact ⟨fun he => hne (String.toList_eq_nil_iff.mp he), hc⟩
  obtain ⟨pre, hs⟩ := splitFirst_lines cr_ne_lf r.line_ok hheaders r.body.toList
  change splitFirst (crlf ++ crlf) r.text = _ at hs
  simp only [bodyOf, hs]

theorem sp_notMem_target (r : Rendering) : ' ' ∉ target r.path r.query := by
  rw [target, List.mem_append, not_or]
  refine ⟨r.path_ok.1, ?_⟩
  cases hq : r.query with
  | none => exact List.not_mem_nil
  | some q =>
    rw [queryText, List.mem_cons, not_or]
    exact ⟨by decide, r.query_ok q hq⟩

theorem upTo_target (r : Rendering) : upTo '?' (target r.path r.query) = r.path.toList := by
  rw [target]
  cases r.query with
  | none => rw [queryText, List.append_nil, upTo_of_notMem r.path_ok.2]
  | some q => exact upTo_append r.path_ok.2 q.toList

theorem requestOf_text (r : Rendering) :
    requestOf r.text = some ⟨Method.ofStr r.method, r.path, Str.bytes r.body⟩ := by
  obtain ⟨rest, hs⟩ := r.splitFirst_text
  have hsp : ' ' ∈ r.line := List.mem_append_right _ List.mem_cons_self
  have hm : upTo ' ' r.line = r.method.toList := upTo_append r.method_ok _
  have ht : upTo ' ' (after ' ' r.line) = target r.path r.query := by
    rw [line, requestLine, after_append r.method_ok]
    exact upTo_append r.sp_notMem_target _
  simp only [requestOf, hs, if_pos hsp, hm, ht, r.upTo_target, r.bodyOf_text, String.ofList_toList]
  rfl

/-- Parsing gives back what was rendered. -/
theorem parseRequest_bytes (r : Rendering) :
    parseRequest r.bytes = .ok (some ⟨Method.ofStr r.method, r.path, Str.bytes r.body⟩) := by
  rw [bytes, parseRequest_utf8, r.requestOf_text]

end Rendering

theorem ofStr_eq_ite (s : String) :
    Method.ofStr s = if s = "GET" then .get else if s = "POST" then .post else .other := by
  unfold Method.ofStr
  split
  · rfl
  · rfl
  · rename_i hget hpost
    rw [if_neg hget, if_neg hpost]

/-- Parsing inverts rendering, and what it gives depends neither on the query
string nor on the version or the headers. -/
theorem parseRequest_rendering (r : Rendering) :
    parseRequest r.bytes = .ok (some
      { method := if r.method = "GET" then .get else if r.method = "POST" then .post else .other
        path := r.path
        body := Str.bytes r.body }) := by
  rw [r.parseRequest_bytes, ofStr_eq_ite]

end SrkOS.Proof.Http
