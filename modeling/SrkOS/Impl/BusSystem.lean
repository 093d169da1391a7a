import SrkOS.Framework.System
import SrkOS.Impl.Tasks
import Mathlib.Logic.Function.Basic

/-!
# The tasks on the command bus

The running system: `wifi_task` and `espnow_task` send commands with
`COMMAND_BUS.send(cmd).await`, which suspends the task while the bus is full;
the task loops spawned for the hardware `hw` receive them, in any order, each
running its own handler on what it receives.
-/

namespace SrkOS.Impl.Bus

open Framework

structure State where
  bus : CommandBus
  /-- The command each producer is suspended with. -/
  pending : Producer → Option Command
  tasks : TaskStates
  /-- The commands the bus has accepted, oldest first. -/
  sent : List Command

inductive Action
  | send (p : Producer) (cmd : Command)
  | resume (p : Producer)
  | receive (t : TaskLoop)
  deriving DecidableEq

inductive Step (hw : DetectedHardware) : State → Action → State → Prop
  | send {s : State} {p : Producer} {cmd : Command} {bus' : CommandBus}
      (hp : s.pending p = none) (hs : s.bus.trySend cmd = some bus') :
      Step hw s (.send p cmd) { s with bus := bus', sent := s.sent ++ [cmd] }
  | suspend {s : State} {p : Producer} {cmd : Command}
      (hp : s.pending p = none) (hs : s.bus.trySend cmd = none) :
      Step hw s (.send p cmd) { s with pending := Function.update s.pending p (some cmd) }
  | resume {s : State} {p : Producer} {cmd : Command} {bus' : CommandBus}
      (hp : s.pending p = some cmd) (hs : s.bus.trySend cmd = some bus') :
      Step hw s (.resume p)
        { s with bus := bus', sent := s.sent ++ [cmd], pending := Function.update s.pending p none }
  | receive {s : State} {t : TaskLoop} {cmd : Command} {bus' : CommandBus}
      (ht : t ∈ spawned hw) (hr : s.bus.tryReceive = some (cmd, bus')) :
      Step hw s (.receive t) { s with bus := bus', tasks := s.tasks.handle cmd t }

/-- The state after boot. -/
def initial : State := ⟨.new, fun _ => none, .initial, []⟩

def system (hw : DetectedHardware) : System State Action where
  init s := s = initial
  step := Step hw

end SrkOS.Impl.Bus
