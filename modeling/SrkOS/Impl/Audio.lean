import SrkOS.Framework.Rust

/-!
# The microphone's ping-pong buffers (`src/tasks/audio.rs`)

The metadata of the pair, `PingPongState`, two atomics, and the halves,
`I2S_PING` and `I2S_PONG`. `swap` and `ready_buffer_from` are written as the
sequences of their atomic accesses.
-/

namespace SrkOS.Impl

open Framework

def I2S_FRAME_SAMPLES : Nat := 512
def I2S_BYTES_PER_SAMPLE : Nat := 2
def I2S_FRAME_SIZE : Nat := I2S_FRAME_SAMPLES * I2S_BYTES_PER_SAMPLE

inductive PingPong
  | ping
  | pong
  deriving DecidableEq, Repr

def PingPong.other : PingPong → PingPong
  | .ping => .pong
  | .pong => .ping

/-- The type of `I2S_PING` and of `I2S_PONG`. -/
abbrev I2sFrame := Vector UInt8 I2S_FRAME_SIZE

/-- `I2S_PING` and `I2S_PONG`. -/
structure I2sFrames where
  ping : I2sFrame
  pong : I2sFrame

namespace I2sFrames

/-- The halves at startup. -/
def zeroed : I2sFrames := ⟨Vector.replicate _ 0, Vector.replicate _ 0⟩

/-- What a half holds. -/
def half (frames : I2sFrames) : PingPong → List UInt8
  | .ping => frames.ping.toList
  | .pong => frames.pong.toList

/-- The DMA engine's write of a byte of a half. -/
def write (frames : I2sFrames) (half : PingPong) (i : Nat) (byte : UInt8) : I2sFrames :=
  match half with
  | .ping => { frames with ping := frames.ping.setIfInBounds i byte }
  | .pong => { frames with pong := frames.pong.setIfInBounds i byte }

end I2sFrames

structure PingPongState where
  /-- `false`: the DMA engine writes into ping; `true`: into pong. -/
  activeIsPong : Bool
  /-- Number of valid bytes in the half completed last; its load is the method
  `ready_len`. -/
  readyLen : Nat
  deriving DecidableEq, Repr

namespace PingPongState

def new : PingPongState := ⟨false, 0⟩

def active (self : PingPongState) : PingPong := if self.activeIsPong then .pong else .ping

def ready (self : PingPongState) : PingPong := self.active.other

/-- The store to `ready_len` in `swap`. -/
def storeReadyLen (self : PingPongState) (len : Nat) : PingPongState :=
  let clamped := min len I2S_FRAME_SIZE
  { self with readyLen := clamped }

/-- The `fetch_xor` of `active_is_pong` in `swap`. -/
def toggleActive (self : PingPongState) : PingPongState :=
  { self with activeIsPong := self.activeIsPong ^^ true }

def swap (self : PingPongState) (len : Nat) : PingPongState :=
  (self.storeReadyLen len).toggleActive

/-- `ready_buffer_from` once it has a length that is not 0: the load of
`active_is_pong`, and the slice. -/
def readySlice (self : PingPongState) (frames : I2sFrames) (len : Nat) : Rust (Slice PingPong) :=
  match self.ready with
  | .ping => sliceTo .ping frames.ping len
  | .pong => sliceTo .pong frames.pong len

def readyBufferFrom (self : PingPongState) (frames : I2sFrames) : Rust (Slice PingPong) := do
  let len := self.readyLen
  if len = 0 then return .empty
  self.readySlice frames len

end PingPongState

end SrkOS.Impl
