import SrkOS.Impl.Espnow
import SrkOS.Proof.Http.Render
import SrkOS.Proof.Http.Routes

/-!
# The two ways in for a command

A payload sent as the body of `POST /api/command` (`CommandPost`) and the same
payload in an ESP-NOW frame give the same command, or none (`ingress_agree`):
the frame is the body, whatever is around it.
-/

namespace SrkOS.Proof.Http

open Framework SrkOS.Impl

/-- A servo's angle is at most 180°. -/
def InRange : Command → Prop
  | .moveServo _ angle => angle.toNat ≤ 180
  | _ => True

/-- A payload sent to `POST /api/command[?query]`. -/
structure CommandPost where
  query : Option String
  version : String
  headers : List String
  payload : String
  query_ok : ∀ q ∈ query, ' ' ∉ q.toList ∧ ¬ crlf <:+: q.toList
  version_ok : ¬ crlf <:+: version.toList
  headers_ok : ∀ h ∈ headers, h ≠ "" ∧ ¬ crlf <:+: h.toList

namespace CommandPost

theorem toList_post : "POST".toList = ['P', 'O', 'S', 'T'] := String.toList_ofList

theorem toList_path : "/api/command".toList =
    ['/', 'a', 'p', 'i', '/', 'c', 'o', 'm', 'm', 'a', 'n', 'd'] := String.toList_ofList

theorem crlf_notMem_target (p : CommandPost) : ¬ crlf <:+: target "/api/command" p.query := by
  have hpath : ¬ crlf <:+: "/api/command".toList :=
    not_infix_of_notMem (by rw [toList_path]; decide)
  rw [target]
  cases hq : p.query with
  | none =>
    rw [queryText, List.append_nil]
    exact hpath
  | some q =>
    intro hi
    rcases infix_append_cons (by decide) (by decide) hi with h | h
    · exact hpath h
    · exact (p.query_ok q hq).2 h

theorem crlf_notMem_line (p : CommandPost) :
    ¬ crlf <:+: requestLine "POST" "/api/command" p.query p.version := by
  have hpost : ¬ crlf <:+: "POST".toList := not_infix_of_notMem (by rw [toList_post]; decide)
  intro hi
  rcases infix_append_cons (by decide) (by decide) hi with h | h
  · exact hpost h
  · rcases infix_append_cons (by decide) (by decide) h with h | h
    · exact p.crlf_notMem_target h
    · exact p.version_ok h

def rendering (p : CommandPost) : Rendering where
  method := "POST"
  path := "/api/command"
  query := p.query
  version := p.version
  headers := p.headers
  body := p.payload
  method_ok := by rw [toList_post]; decide
  path_ok := by rw [toList_path]; decide
  query_ok q hq := (p.query_ok q hq).1
  line_ok := p.crlf_notMem_line
  headers_ok := p.headers_ok

/-- The request. -/
def bytes (p : CommandPost) : List UInt8 := p.rendering.bytes

/-- A payload with nothing around it that need not be there. -/
def plain (payload : String) : CommandPost where
  query := none
  version := ""
  headers := []
  payload := payload
  query_ok := nofun
  version_ok := by decide
  headers_ok := nofun

end CommandPost

section

variable {fromSlice : List UInt8 → Option ApiCommand}

/-- What becomes of a payload sent over HTTP. -/
theorem handleRequest_commandPost (p : CommandPost) :
    handleRequest fromSlice p.bytes =
      .ok (some (match parseEspnowPayload fromSlice (Str.bytes p.payload) with
        | some cmd => .commandAccepted cmd
        | none => .badRequest)) := by
  rw [handleRequest, CommandPost.bytes, Rendering.parseRequest_bytes]
  rfl

/-- An outcome is that of a request parsed. -/
theorem handleRequest_eq_some {raw : List UInt8} {r : RouteResult} :
    handleRequest fromSlice raw = .ok (some r) ↔
      ∃ req, parseRequest raw = .ok (some req) ∧ routeRequest fromSlice req = r := by
  rw [handleRequest]
  cases hp : parseRequest raw with
  | error e => simp
  | ok req => simp

/-- A command accepted over HTTP was in the body. -/
theorem exists_payload {raw : List UInt8} {cmd : Command}
    (h : handleRequest fromSlice raw = .ok (some (.commandAccepted cmd))) :
    ∃ payload, IsUtf8 payload ∧ parseEspnowPayload fromSlice payload = some cmd := by
  obtain ⟨req, hreq, hr⟩ := handleRequest_eq_some.mp h
  obtain ⟨text, -, htext⟩ := exists_requestOf hreq
  have hc := ((routeRequest_outcome req).commandAccepted cmd).mp hr
  exact ⟨req.body, ⟨bodyOf text, (body_of_requestOf htext).symm⟩, parseApiBody_eq_some.mpr hc.2.2⟩

theorem apiCommandToCommand_inRange {api : ApiCommand} {cmd : Command}
    (h : apiCommandToCommand api = some cmd) : InRange cmd := by
  cases api with
  | moveServo target =>
    obtain ⟨id, angle⟩ := target
    simp only [apiCommandToCommand, Option.ite_none_left_eq_some, Option.some.injEq] at h
    obtain ⟨hle, rfl⟩ := h
    exact UInt16.le_iff_toNat_le.mp (UInt16.not_lt.mp hle)
  | setFaceExpression expr =>
    simp only [apiCommandToCommand] at h
    split at h <;> cases h <;> trivial
  | streamAudio on | streamVideo on =>
    cases h
    trivial

theorem parseEspnowPayload_inRange {data : List UInt8} {cmd : Command}
    (h : parseEspnowPayload fromSlice data = some cmd) : InRange cmd := by
  obtain ⟨api, -, hc⟩ := parseApiBody_eq_some.mp h
  exact apiCommandToCommand_inRange hc

theorem handleRequest_inRange {raw : List UInt8} {cmd : Command}
    (h : handleRequest fromSlice raw = .ok (some (.commandAccepted cmd))) : InRange cmd := by
  obtain ⟨payload, -, hc⟩ := exists_payload h
  exact parseEspnowPayload_inRange hc

end

/-- For every JSON decoder: a payload sent over HTTP, with any query string,
version and headers, is accepted as the command that ESP-NOW takes it for, is a bad
request if ESP-NOW discards it, and has no other outcome; and the commands that can
come in over HTTP are those that can in a UTF-8 frame. -/
theorem ingress_agree (fromSlice : List UInt8 → Option ApiCommand) :
    (∀ p : CommandPost, ∃ r, handleRequest fromSlice p.bytes = .ok (some r) ∧
      (∀ cmd, r = .commandAccepted cmd ↔
        parseEspnowPayload fromSlice (Str.bytes p.payload) = some cmd) ∧
      (r = .badRequest ↔ parseEspnowPayload fromSlice (Str.bytes p.payload) = none) ∧
      (r = .badRequest ∨ ∃ cmd, r = .commandAccepted cmd)) ∧
    ∀ cmd, (∃ raw, handleRequest fromSlice raw = .ok (some (.commandAccepted cmd))) ↔
      ∃ payload, IsUtf8 payload ∧ parseEspnowPayload fromSlice payload = some cmd := by
  constructor
  · intro p
    refine ⟨_, handleRequest_commandPost p, ?_⟩
    cases parseEspnowPayload fromSlice (Str.bytes p.payload) with
    | none => simp only [reduceCtorEq, implies_true, true_and, true_or]
    | some cmd =>
      simp only [RouteResult.commandAccepted.injEq, Option.some.injEq, implies_true, reduceCtorEq,
        exists_eq', or_true, true_and]
  · intro cmd
    constructor
    · rintro ⟨raw, h⟩
      exact exists_payload h
    · rintro ⟨_, ⟨cs, rfl⟩, h⟩
      refine ⟨(CommandPost.plain (String.ofList cs)).bytes, ?_⟩
      rw [handleRequest_commandPost]
      have hp : Str.bytes (CommandPost.plain (String.ofList cs)).payload = utf8 cs :=
        bytes_ofList cs
      rw [hp, h]

end SrkOS.Proof.Http
