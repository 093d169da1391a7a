import SrkOS.Proof.Http.Parse

/-!
# The meaning of a request

What a raw request means is said about its bytes (`NoRequest`, `Reads`,
`Meaning`), with no reference to how it is parsed; `handleRequest_meaning`: it is
what parsing and routing make of it, for every JSON decoder.
-/

namespace SrkOS.Proof.Http

open Framework SrkOS.Impl

/-! ## The specification -/

/-- There is no request in `raw`: it is not UTF-8, has no CR LF, or no space before
the first one. -/
def NoRequest (raw : List UInt8) : Prop :=
  ¬ IsUtf8 raw ∨ ¬ Str.bytes "\r\n" <:+: raw ∨
    ∃ line rest, FirstSplit (Str.bytes "\r\n") line rest raw ∧ ' '.toUInt8 ∉ line

/-- The method, path and body of the request in `raw`. -/
structure Reads (raw method path body : List UInt8) : Prop where
  valid : IsUtf8 raw
  /-- Of the line before the first CR LF: the method is up to the first space, the
  path up to the first `?` of what is between that space and the next. -/
  line : ∃ line rest, FirstSplit (Str.bytes "\r\n") line rest raw ∧ ' '.toUInt8 ∈ line ∧
    method = upTo ' '.toUInt8 line ∧
    path = upTo '?'.toUInt8 (upTo ' '.toUInt8 (after ' '.toUInt8 line))
  /-- The body is what is after the first CR LF CR LF, if there is one. -/
  body : (∃ pre, FirstSplit (Str.bytes "\r\n\r\n") pre body raw) ∨
    ¬ Str.bytes "\r\n\r\n" <:+: raw ∧ body = []

section

variable (fromSlice : List UInt8 → Option ApiCommand)

/-- The body is that of a command. -/
def Commands (body : List UInt8) (cmd : Command) : Prop :=
  ∃ api, fromSlice body = some api ∧ apiCommandToCommand api = some cmd

/-- The outcome of a request, by whether its method is `GET` or `POST`, by which
path it has, and by its body. -/
structure Outcome (get post : Prop) (path : String → Prop) (body : List UInt8)
    (r : RouteResult) : Prop where
  serveIndex : r = .serveIndex ↔ get ∧ (path "/" ∨ path "/index.html")
  serveVideoStream : r = .serveVideoStream ↔ get ∧ path "/api/stream/video"
  serveAudioStream : r = .serveAudioStream ↔ get ∧ path "/api/stream/audio"
  commandAccepted : ∀ cmd,
    r = .commandAccepted cmd ↔ post ∧ path "/api/command" ∧ Commands fromSlice body cmd
  badRequest :
    r = .badRequest ↔ post ∧ path "/api/command" ∧ ¬ ∃ cmd, Commands fromSlice body cmd
  notFound :
    r = .notFound ↔
      ¬ (get ∧ (path "/" ∨ path "/index.html" ∨ path "/api/stream/video" ∨
        path "/api/stream/audio")) ∧
      ¬ (post ∧ path "/api/command")

/-- What becomes of `raw`, if anything, is what it means. -/
structure Meaning (raw : List UInt8) (r : Option RouteResult) : Prop where
  noRequest : r = none ↔ NoRequest raw
  request : r ≠ none → ∃ method path body, Reads raw method path body
  outcome : ∀ method path body, Reads raw method path body → ∃ r', r = some r' ∧
    Outcome fromSlice (method = Str.bytes "GET") (method = Str.bytes "POST")
      (fun s => path = Str.bytes s) body r'

/-! ## Routing -/

variable {fromSlice}

theorem parseApiBody_eq_some {body : List UInt8} {cmd : Command} :
    parseApiBody fromSlice body = some cmd ↔ Commands fromSlice body cmd :=
  Option.bind_eq_some_iff

theorem routeRequest_outcome (req : RequestParts) :
    Outcome fromSlice (req.method = .get) (req.method = .post) (req.path = ·) req.body
      (routeRequest fromSlice req) := by
  unfold routeRequest
  split
  case h_5 hm hp =>
    -- `POST /api/command`: the body decides
    simp only [hm, hp]
    cases hb : parseApiBody fromSlice req.body with
    | none => constructor <;> simp [← parseApiBody_eq_some, hb]
    | some cmd => constructor <;> simp [← parseApiBody_eq_some, hb]
  case h_6 h₁ h₂ h₃ h₄ h₅ =>
    constructor <;> simp only [reduceCtorEq, false_iff, true_iff]
    · intro ⟨hm, hp⟩
      rcases hp with hp | hp
      · exact h₁ hm hp
      · exact h₂ hm hp
    · exact fun ⟨hm, hp⟩ => h₃ hm hp
    · exact fun ⟨hm, hp⟩ => h₄ hm hp
    · exact fun _ ⟨hm, hp, _⟩ => h₅ hm hp
    · exact fun ⟨hm, hp, _⟩ => h₅ hm hp
    · refine ⟨fun ⟨hm, hp⟩ => ?_, fun ⟨hm, hp⟩ => h₅ hm hp⟩
      rcases hp with hp | hp | hp | hp
      · exact h₁ hm hp
      · exact h₂ hm hp
      · exact h₃ hm hp
      · exact h₄ hm hp
  all_goals
    rename_i hm hp
    simp only [hm, hp]
    constructor <;> simp

/-! ## Parsing -/

theorem bytes_inj {s t : String} : Str.bytes s = Str.bytes t ↔ s = t := by
  exact ⟨fun h => String.toList_inj.mp (utf8_injective h), congrArg Str.bytes⟩

theorem bytes_ofList (cs : List Char) : Str.bytes (String.ofList cs) = utf8 cs := by
  rw [Str.bytes, String.toList_ofList]

theorem ofStr_eq_get {s : String} : Method.ofStr s = .get ↔ s = "GET" := by
  unfold Method.ofStr
  split <;> simp_all

theorem ofStr_eq_post {s : String} : Method.ofStr s = .post ↔ s = "POST" := by
  unfold Method.ofStr
  split <;> simp_all

/-- A request that `raw` has, as parsed. -/
structure Parsed (method path body : List UInt8) (req : RequestParts) : Prop where
  get : req.method = .get ↔ method = Str.bytes "GET"
  post : req.method = .post ↔ method = Str.bytes "POST"
  path : path = Str.bytes req.path
  body : req.body = body

theorem sp_ascii : Ascii ' ' := by decide

theorem qm_ascii : Ascii '?' := by decide

section

variable {text : List Char} {pre post : List UInt8}

/-- The first line of an encoding is that of the text. -/
theorem firstSplit_crlf :
    FirstSplit (Str.bytes "\r\n") pre post (utf8 text) ↔
      ∃ pre' post', splitFirst crlf text = some (pre', post') ∧ utf8 pre' = pre ∧
        utf8 post' = post := by
  rw [bytes_crlf]
  exact firstSplit_utf8 (by decide) crlf_ascii

theorem firstSplit_crlf_crlf :
    FirstSplit (Str.bytes "\r\n\r\n") pre post (utf8 text) ↔
      ∃ pre' post', splitFirst (crlf ++ crlf) text = some (pre', post') ∧ utf8 pre' = pre ∧
        utf8 post' = post := by
  rw [bytes_crlf_crlf]
  exact firstSplit_utf8 (by decide) crlf_crlf_ascii

theorem infix_crlf_iff : Str.bytes "\r\n" <:+: utf8 text ↔ crlf <:+: text := by
  rw [bytes_crlf]
  exact infix_utf8_iff (by decide) crlf_ascii

theorem infix_crlf_crlf_iff : Str.bytes "\r\n\r\n" <:+: utf8 text ↔ crlf ++ crlf <:+: text := by
  rw [bytes_crlf_crlf]
  exact infix_utf8_iff (by decide) crlf_crlf_ascii

end

variable {raw method path body : List UInt8}

theorem parseRequest_noRequest (h : NoRequest raw) : parseRequest raw = .ok none := by
  by_cases hu : IsUtf8 raw
  · obtain ⟨text, rfl⟩ := hu
    rw [parseRequest_utf8, requestOf]
    rcases h with hn | hn | ⟨line, rest, hl, hsp⟩
    · exact absurd ⟨text, rfl⟩ hn
    · rw [infix_crlf_iff] at hn
      rw [splitFirst_eq_none.mpr hn]
    · obtain ⟨line', rest', hs, rfl, -⟩ := firstSplit_crlf.mp hl
      rw [mem_utf8 sp_ascii] at hsp
      simp only [hs, if_neg hsp]
  · exact parseRequest_invalid hu

/-- The body of an encoding is that of the text. -/
theorem Reads.bodyOf_eq {text : List Char} (h : Reads (utf8 text) method path body) :
    utf8 (bodyOf text) = body := by
  rcases h.body with ⟨pre, hb⟩ | ⟨hn, rfl⟩
  · obtain ⟨pre', post', hs, -, rfl⟩ := firstSplit_crlf_crlf.mp hb
    simp only [bodyOf, hs]
  · rw [infix_crlf_crlf_iff] at hn
    simp only [bodyOf, splitFirst_eq_none.mpr hn]
    rfl

theorem Reads.parsed (h : Reads raw method path body) :
    ∃ req, parseRequest raw = .ok (some req) ∧ Parsed method path body req := by
  obtain ⟨text, rfl⟩ := h.valid
  obtain ⟨line, rest, hl, hsp, rfl, rfl⟩ := h.line
  obtain ⟨line', rest', hs, rfl, -⟩ := firstSplit_crlf.mp hl
  rw [mem_utf8 sp_ascii] at hsp
  rw [parseRequest_utf8, requestOf]
  simp only [hs, if_pos hsp]
  refine ⟨_, rfl, ?_, ?_, ?_, h.bodyOf_eq⟩
  · rw [ofStr_eq_get, upTo_utf8 sp_ascii, ← bytes_ofList, bytes_inj]
  · rw [ofStr_eq_post, upTo_utf8 sp_ascii, ← bytes_ofList, bytes_inj]
  · rw [after_utf8 sp_ascii, upTo_utf8 sp_ascii, upTo_utf8 qm_ascii, bytes_ofList]

theorem noRequest_or_reads (raw : List UInt8) :
    NoRequest raw ∨ ∃ method path body, Reads raw method path body := by
  by_cases hu : IsUtf8 raw
  · obtain ⟨text, rfl⟩ := hu
    cases hs : splitFirst crlf text with
    | none => exact .inl (.inr (.inl (infix_crlf_iff.not.mpr (splitFirst_eq_none.mp hs))))
    | some p =>
      obtain ⟨line, rest⟩ := p
      have hl : FirstSplit (Str.bytes "\r\n") (utf8 line) (utf8 rest) (utf8 text) :=
        firstSplit_crlf.mpr ⟨line, rest, hs, rfl, rfl⟩
      by_cases hsp : ' ' ∈ line
      · refine .inr ⟨_, _, utf8 (bodyOf text), ⟨text, rfl⟩,
          ⟨_, _, hl, (mem_utf8 sp_ascii).mpr hsp, rfl, rfl⟩, ?_⟩
        cases hb : splitFirst (crlf ++ crlf) text with
        | none =>
          refine .inr ⟨infix_crlf_crlf_iff.not.mpr (splitFirst_eq_none.mp hb), ?_⟩
          simp only [bodyOf, hb]
          rfl
        | some q =>
          have hbody : utf8 q.2 = utf8 (bodyOf text) := by simp only [bodyOf, hb]
          exact .inl ⟨_, firstSplit_crlf_crlf.mpr ⟨q.1, q.2, hb, rfl, hbody⟩⟩
      · exact .inl (.inr (.inr ⟨_, _, hl, (mem_utf8 sp_ascii).not.mpr hsp⟩))
  · exact .inl (.inl hu)

/-! ## Parsing and routing -/

theorem Parsed.outcome {req : RequestParts} (h : Parsed method path body req) :
    Outcome fromSlice (method = Str.bytes "GET") (method = Str.bytes "POST")
      (fun s => path = Str.bytes s) body (routeRequest fromSlice req) := by
  have hr : Outcome fromSlice _ _ _ _ (routeRequest fromSlice req) := routeRequest_outcome req
  simp only [h.get, h.post, h.body] at hr
  simpa only [h.path, bytes_inj] using hr

/-- For every JSON decoder and all bytes: parsing and routing does not panic, and
gives what the bytes mean. -/
theorem handleRequest_meaning (fromSlice : List UInt8 → Option ApiCommand) (raw : List UInt8) :
    ∃ r, handleRequest fromSlice raw = .ok r ∧ Meaning fromSlice raw r := by
  rcases noRequest_or_reads raw with hn | ⟨method, path, body, hreads⟩
  · have hp := parseRequest_noRequest hn
    refine ⟨none, by rw [handleRequest, hp]; rfl, iff_of_true rfl hn, absurd rfl, ?_⟩
    intro m p b hr
    obtain ⟨req, hreq, -⟩ := hr.parsed
    simp [hp] at hreq
  · obtain ⟨req, hreq, -⟩ := hreads.parsed
    refine ⟨some (routeRequest fromSlice req), by rw [handleRequest, hreq]; rfl, ?_,
      fun _ => ⟨method, path, body, hreads⟩, ?_⟩
    · apply iff_of_false (Option.some_ne_none _)
      intro hn
      simp [parseRequest_noRequest hn] at hreq
    · intro m p b hr
      obtain ⟨req', hreq', hparsed⟩ := hr.parsed
      rw [hreq, Except.ok.injEq, Option.some.injEq] at hreq'
      subst hreq'
      exact ⟨_, rfl, hparsed.outcome⟩

end

end SrkOS.Proof.Http
