import SrkOS.Framework.Channel

/-!
# The command bus (`src/ipc.rs`)
-/

namespace SrkOS.Impl

/-- Facial expression rendered on the SSD1306 OLED. -/
inductive Expression
  | happy
  | sad
  | neutral
  | surprised
  deriving DecidableEq, Repr

/-- System-wide commands dispatched over the command bus. -/
inductive Command
  | setFaceExpression (expr : Expression)
  /-- The servo and its angle in degrees. -/
  | moveServo (id : UInt8) (angle : UInt16)
  | streamAudio (on : Bool)
  | streamVideo (on : Bool)
  deriving DecidableEq, Repr

/-- The capacity of `COMMAND_BUS`. -/
def BUS_CAPACITY : Nat := 8

/-- The type of `COMMAND_BUS`. -/
abbrev CommandBus := Framework.Channel Command BUS_CAPACITY

end SrkOS.Impl
