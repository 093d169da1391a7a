import SrkOS.Framework.Str
import SrkOS.Impl.Ipc

/-!
# The HTTP server (`src/tasks/http.rs`)

Parsing and routing of a request. The JSON decoder, `serde_json_core::from_slice`,
is a parameter: any function `fromSlice` from bytes to an `ApiCommand`, if it
accepts them.
-/

namespace SrkOS.Impl

open Framework

inductive Method
  | get
  | post
  | other
  deriving DecidableEq, Repr

/-- The method of the first token of a request line. -/
def Method.ofStr : String → Method
  | "GET" => .get
  | "POST" => .post
  | _ => .other

structure RequestParts where
  method : Method
  /-- Request path, with any query string stripped. -/
  path : String
  body : List UInt8
  deriving DecidableEq

/-- The byte offset of the body. -/
def findBodyStart (raw : List UInt8) : Option Nat :=
  ((windows 4 raw).findIdx? fun w => decide (w = Str.bytes "\r\n\r\n")).map (· + 4)

/-- The bytes from the body on, if there is one. -/
def bodyFrom (raw : List UInt8) : Rust (List UInt8) :=
  match findBodyStart raw with
  | some off => sliceFrom raw off
  | none => pure []

def parseRequest (raw : List UInt8) : Rust (Option RequestParts) := do
  let some text := fromUtf8 raw | return none
  let some lineEnd := Str.find text "\r\n" | return none
  let requestLine ← Str.sliceTo text lineEnd
  let tokens := Str.splitn requestLine 3 ' '
  let some methodStr := tokens[0]? | return none
  let some rawPath := tokens[1]? | return none
  let method := Method.ofStr methodStr
  let path := (Str.split rawPath '?').head?.getD rawPath
  let body ← bodyFrom raw
  return some { method, path, body }

/-- A `heapless::String<N>`: it holds at most `N` bytes. -/
def HeaplessString (N : Nat) : Type := { s : String // (Str.bytes s).length ≤ N }

inductive ApiCommand
  | setFaceExpression (expr : HeaplessString 16)
  | moveServo (target : UInt8 × UInt16)
  | streamAudio (on : Bool)
  | streamVideo (on : Bool)

def apiCommandToCommand : ApiCommand → Option Command
  | .setFaceExpression expr =>
    match expr.val with
    | "Happy" => some (.setFaceExpression .happy)
    | "Sad" => some (.setFaceExpression .sad)
    | "Neutral" => some (.setFaceExpression .neutral)
    | "Surprised" => some (.setFaceExpression .surprised)
    | _ => none
  | .moveServo (id, angle) => if angle > 180 then none else some (.moveServo id angle)
  | .streamAudio on => some (.streamAudio on)
  | .streamVideo on => some (.streamVideo on)

inductive RouteResult
  | serveIndex
  | commandAccepted (cmd : Command)
  | serveVideoStream
  | serveAudioStream
  | badRequest
  | notFound
  deriving DecidableEq, Repr

section

variable (fromSlice : List UInt8 → Option ApiCommand)

def parseApiBody (body : List UInt8) : Option Command := do
  let apiCmd ← fromSlice body
  apiCommandToCommand apiCmd

def routeRequest (req : RequestParts) : RouteResult :=
  match req.method, req.path with
  | .get, "/" => .serveIndex
  | .get, "/index.html" => .serveIndex
  | .get, "/api/stream/video" => .serveVideoStream
  | .get, "/api/stream/audio" => .serveAudioStream
  | .post, "/api/command" =>
    match parseApiBody fromSlice req.body with
    | some cmd => .commandAccepted cmd
    | none => .badRequest
  | _, _ => .notFound

/-- What `wifi_task` does with what it has read: `parse_request`, then
`route_request`. -/
def handleRequest (raw : List UInt8) : Rust (Option RouteResult) := do
  let req ← parseRequest raw
  return req.map (routeRequest fromSlice)

end

end SrkOS.Impl
