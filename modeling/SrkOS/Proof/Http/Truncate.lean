import SrkOS.Proof.Http.Parse

/-!
# Truncated requests

A socket may hand over only the beginning of a request. If that much parses, it
has the method and the path of the whole request, and the beginning of its body
(`parseRequest_truncated`): the first line is complete once its CR LF is there,
and the first empty line stays the first one when more bytes come in. So a short
read is routed as the whole request would be, but for the body of a command.
-/

namespace SrkOS.Proof.Http

open Framework SrkOS.Impl

/-- The path of a command. -/
def IsCommand (req : RequestParts) : Prop := req.method = .post ∧ req.path = "/api/command"

instance (req : RequestParts) : Decidable (IsCommand req) := inferInstanceAs (Decidable (_ ∧ _))

/-- A request for a command is accepted, or a bad one. -/
def AcceptedOrBad (r : RouteResult) : Prop := r = .badRequest ∨ ∃ cmd, r = .commandAccepted cmd

/-! ## Routing -/

section

variable {fromSlice : List UInt8 → Option ApiCommand} {req req' : RequestParts}

/-- Apart from commands, the body does not matter. -/
theorem routeRequest_congr (hm : req'.method = req.method) (hp : req'.path = req.path)
    (hc : ¬ IsCommand req) : routeRequest fromSlice req' = routeRequest fromSlice req := by
  unfold routeRequest
  rw [hm, hp]
  split
  case h_5 hm' hp' => exact absurd ⟨hm', hp'⟩ hc
  all_goals rfl

theorem routeRequest_command (hc : IsCommand req) :
    AcceptedOrBad (routeRequest fromSlice req) := by
  simp only [routeRequest, hc.1, hc.2]
  cases parseApiBody fromSlice req.body with
  | none => exact .inl rfl
  | some cmd => exact .inr ⟨cmd, rfl⟩

end

/-! ## Parsing -/

section

variable {text text' : List Char}

theorem bodyOf_grows (h : text <+: text') : bodyOf text <+: bodyOf text' := by
  obtain ⟨rest, rfl⟩ := h
  unfold bodyOf
  cases hs : splitFirst (crlf ++ crlf) text with
  | none => exact List.nil_prefix
  | some p =>
    obtain ⟨pre, body⟩ := p
    simp only [splitFirst_append hs rest]
    exact List.prefix_append body rest

/-- The request of the beginning of a text is that of the text, but for the end
of its body. -/
theorem requestOf_grows (h : text <+: text') {req : RequestParts}
    (hr : requestOf text = some req) :
    ∃ req', requestOf text' = some req' ∧ req'.method = req.method ∧ req'.path = req.path ∧
      req.body <+: req'.body := by
  have hbody := utf8_isPrefix_iff.mpr (bodyOf_grows h)
  obtain ⟨rest, rfl⟩ := h
  unfold requestOf at hr ⊢
  cases hs : splitFirst crlf text with
  | none => simp [hs] at hr
  | some p =>
    obtain ⟨line, post⟩ := p
    simp only [hs, Option.ite_none_right_eq_some, Option.some.injEq] at hr
    obtain ⟨hsp, rfl⟩ := hr
    simp only [splitFirst_append hs rest, if_pos hsp]
    exact ⟨_, rfl, rfl, rfl, hbody⟩

end

/-- If the beginning of a request parses, the request does, with the same method
and path, and a body that goes on; and for every JSON decoder both are routed the
same way, but for commands, which are accepted or bad requests both times. -/
theorem parseRequest_truncated {raw p : List UInt8} (hu : IsUtf8 raw) (hp : p <+: raw)
    {req : RequestParts} (h : parseRequest p = .ok (some req)) :
    ∃ req', parseRequest raw = .ok (some req') ∧
      req'.method = req.method ∧ req'.path = req.path ∧ req.body <+: req'.body ∧
      ∀ fromSlice, if IsCommand req then
          AcceptedOrBad (routeRequest fromSlice req) ∧ AcceptedOrBad (routeRequest fromSlice req')
        else routeRequest fromSlice req' = routeRequest fromSlice req := by
  obtain ⟨text', rfl⟩ := hu
  obtain ⟨text, rfl, hr⟩ := exists_requestOf h
  obtain ⟨req', hr', hm, hpath, hbody⟩ := requestOf_grows (utf8_isPrefix_iff.mp hp) hr
  refine ⟨req', by rw [parseRequest_utf8, hr'], hm, hpath, hbody, fun fromSlice => ?_⟩
  by_cases hc : IsCommand req
  · have hc' : IsCommand req' := ⟨hm.trans hc.1, hpath.trans hc.2⟩
    rw [if_pos hc]
    exact ⟨routeRequest_command hc, routeRequest_command hc'⟩
  · rw [if_neg hc]
    exact routeRequest_congr hm hpath hc

/-- A request read up to the middle of its CR LF CR LF. -/
theorem cut_in_terminator :
    ∃ req', parseRequest (utf8 "GET / H\r\n\r\nx".toList) = .ok (some req') ∧
      req'.method = .get ∧ req'.path = "/" := by
  have hp : utf8 "GET / H\r\n\r".toList <+: utf8 "GET / H\r\n\r\nx".toList :=
    utf8_isPrefix_iff.mpr ⟨['\n', 'x'], by decide⟩
  have h : parseRequest (utf8 "GET / H\r\n\r".toList) = .ok (some ⟨.get, "/", []⟩) := by
    rw [parseRequest_utf8]
    rfl
  obtain ⟨req', hr', hm, hpath, -⟩ := parseRequest_truncated ⟨_, rfl⟩ hp h
  exact ⟨req', hr', hm, hpath⟩

end SrkOS.Proof.Http
