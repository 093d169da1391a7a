import SrkOS.Impl.Ipc
import SrkOS.Impl.Hardware

/-!
# The task state machines and their spawning

The handlers of `src/tasks/oled.rs`, `src/tasks/camera.rs` and
`src/tasks/audio.rs`, and the part of `main` (`src/main.rs`) that spawns the
task loops.
-/

namespace SrkOS.Impl

/-- The display state of the OLED task. -/
inductive OledState
  | blank
  | face (expr : Expression)
  deriving DecidableEq, Repr

/-- The operational state of the camera pipeline. -/
inductive CameraState
  | idle
  | streaming
  deriving DecidableEq, Repr

/-- The operational state of the audio pipeline. -/
inductive AudioState
  | idle
  | streaming
  deriving DecidableEq, Repr

def handleCommand (state : OledState) : Command → OledState
  | .setFaceExpression expr => .face expr
  | _ => state

def handleCameraCommand (state : CameraState) : Command → CameraState
  | .streamVideo true => .streaming
  | .streamVideo false => .idle
  | _ => state

def handleAudioCommand (state : AudioState) : Command → AudioState
  | .streamAudio true => .streaming
  | .streamAudio false => .idle
  | _ => state

/-- The task loops that receive from the command bus. -/
inductive TaskLoop
  | oledTaskLoop
  | cameraTaskLoop
  | audioTaskLoop
  deriving DecidableEq, Repr

/-- The tasks that send on the command bus, which `main` spawns on every
board. -/
inductive Producer
  | wifiTask
  | espnowTask
  deriving DecidableEq, Repr

/-- The task loops `main` spawns for the hardware found. -/
def spawned (hw : DetectedHardware) : List TaskLoop :=
  (if hw.oled then [.oledTaskLoop] else []) ++
  (if hw.camera then [.cameraTaskLoop] else []) ++
  (if hw.audio then [.audioTaskLoop] else [])

/-- The local variables `state` of the three task loops. -/
structure TaskStates where
  oled : OledState
  camera : CameraState
  audio : AudioState
  deriving DecidableEq, Repr

/-- The task loops' states before their first command. -/
def TaskStates.initial : TaskStates := ⟨.blank, .idle, .idle⟩

/-- A task loop's iteration with the command it received. -/
def TaskStates.handle (ts : TaskStates) (cmd : Command) : TaskLoop → TaskStates
  | .oledTaskLoop => { ts with oled := handleCommand ts.oled cmd }
  | .cameraTaskLoop => { ts with camera := handleCameraCommand ts.camera cmd }
  | .audioTaskLoop => { ts with audio := handleAudioCommand ts.audio cmd }

end SrkOS.Impl
