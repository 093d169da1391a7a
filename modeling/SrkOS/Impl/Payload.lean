import SrkOS.Impl.Ipc

/-!
# Command payloads

The JSON objects that carry commands: an object with the name of the command
and its value, without white space, as `JSON.stringify` writes it in
`ui/index.html`.
-/

namespace SrkOS.Impl

def Expression.name : Expression → String
  | .happy => "Happy"
  | .sad => "Sad"
  | .neutral => "Neutral"
  | .surprised => "Surprised"

namespace Payload

def tagged (tag value : String) : String := "\x7b\"" ++ tag ++ "\":" ++ value ++ "\x7d"

def setFaceExpression (expr : String) : String := tagged "SetFaceExpression" ("\"" ++ expr ++ "\"")

def moveServo (id angle : String) : String := tagged "MoveServo" ("[" ++ id ++ "," ++ angle ++ "]")

def flag (on : Bool) : String := if on then "true" else "false"

def streamAudio (on : Bool) : String := tagged "StreamAudio" (flag on)

def streamVideo (on : Bool) : String := tagged "StreamVideo" (flag on)

/-- The payload that carries a command. -/
def ofCommand : Command → String
  | .setFaceExpression expr => setFaceExpression expr.name
  | .moveServo id angle => moveServo id.toNat.repr angle.toNat.repr
  | .streamAudio on => streamAudio on
  | .streamVideo on => streamVideo on

end Payload

end SrkOS.Impl
