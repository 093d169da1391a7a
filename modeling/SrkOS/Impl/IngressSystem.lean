import SrkOS.Impl.BusSystem
import SrkOS.Impl.Espnow

/-!
# The ways in to the command bus

The command bus with what comes in: `wifi_task` reads requests, and
`espnow_task` receives frames. A command that one of them makes of the bytes is
sent on the bus; everything else that comes in changes nothing. A task that is
suspended with a command takes in nothing.

`wifi_task` parses what one `socket.read` put into `RX_BUFFER`, so a request
comes in whole only if it fits.
-/

namespace SrkOS.Impl.Ingress

open Framework

/-- The length of `RX_BUFFER`: at most this many bytes are read of a request. -/
def RX_BUFFER_LEN : Nat := 4096

structure State where
  sys : Bus.State
  /-- The commands the task loops have received, oldest first. -/
  delivered : List (TaskLoop × Command)

inductive Action
  /-- A read of `wifi_task` gives these bytes. -/
  | http (raw : List UInt8)
  | espnow (data : List UInt8)
  | resume (p : Producer)
  | receive (t : TaskLoop)
  deriving DecidableEq

inductive Step (fromSlice : List UInt8 → Option ApiCommand) (hw : DetectedHardware) :
    State → Action → State → Prop
  | httpAccepted {s : State} {raw : List UInt8} {cmd : Command} {sys' : Bus.State}
      (hc : handleRequest fromSlice raw = .ok (some (.commandAccepted cmd)))
      (hs : Bus.Step hw s.sys (.send .wifiTask cmd) sys') :
      Step fromSlice hw s (.http raw) { s with sys := sys' }
  | httpOther {s : State} {raw : List UInt8} (hp : s.sys.pending .wifiTask = none)
      (hc : ∀ cmd, handleRequest fromSlice raw ≠ .ok (some (.commandAccepted cmd))) :
      Step fromSlice hw s (.http raw) s
  | espnowAccepted {s : State} {data : List UInt8} {cmd : Command} {sys' : Bus.State}
      (hc : parseEspnowPayload fromSlice data = some cmd)
      (hs : Bus.Step hw s.sys (.send .espnowTask cmd) sys') :
      Step fromSlice hw s (.espnow data) { s with sys := sys' }
  | espnowDiscarded {s : State} {data : List UInt8} (hp : s.sys.pending .espnowTask = none)
      (hc : parseEspnowPayload fromSlice data = none) : Step fromSlice hw s (.espnow data) s
  | resume {s : State} {p : Producer} {sys' : Bus.State}
      (hs : Bus.Step hw s.sys (.resume p) sys') :
      Step fromSlice hw s (.resume p) { s with sys := sys' }
  | receive {s : State} {t : TaskLoop} {cmd : Command} {sys' : Bus.State}
      (hq : s.sys.bus.queue.head? = some cmd) (hs : Bus.Step hw s.sys (.receive t) sys') :
      Step fromSlice hw s (.receive t) ⟨sys', s.delivered ++ [(t, cmd)]⟩

/-- The state after boot. -/
def initial : State := ⟨Bus.initial, []⟩

def system (fromSlice : List UInt8 → Option ApiCommand) (hw : DetectedHardware) :
    System State Action where
  init s := s = initial
  step := Step fromSlice hw

end SrkOS.Impl.Ingress
