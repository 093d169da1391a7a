import SrkOS.Framework.Rust

/-!
# Hardware auto-discovery (`src/hardware.rs`)

The I2C bus is a device with a state of its own (`I2c`): each read may answer
as it likes and change the bus.
-/

namespace SrkOS.Impl

/-- The ESP32's `usize`. -/
abbrev esp32 : Framework.Usize := ⟨32, by decide⟩

def SSD1306_ADDR : UInt8 := 0x3C
def CAMERA_SCCB_ADDR : UInt8 := 0x30
def AUDIO_CODEC_ADDR : UInt8 := 0x1A

/-- An I2C bus with states `σ` and errors `ε`. `read s address buf` is the
result, the buffer and the bus after a read of `buf.length` bytes. -/
structure I2c (σ ε : Type) where
  read : σ → UInt8 → List UInt8 → Except ε Unit × List UInt8 × σ

/-- The peripherals found by the boot-time scan. -/
structure DetectedHardware where
  oled : Bool
  camera : Bool
  audio : Bool
  deriving DecidableEq, Repr

variable {σ ε : Type}

/-- A 1-byte read from `address`: whether the device acknowledged it. -/
def probeI2cDevice (i2c : I2c σ ε) (address : UInt8) : StateM σ Bool := fun s =>
  let (result, _, s') := i2c.read s address [0]
  (result.isOk, s')

def probeHardware (i2c : I2c σ ε) : StateM σ DetectedHardware := do
  let oled ← probeI2cDevice i2c SSD1306_ADDR
  let camera ← probeI2cDevice i2c CAMERA_SCCB_ADDR
  let audio ← probeI2cDevice i2c AUDIO_CODEC_ADDR
  return { oled, camera, audio }

end SrkOS.Impl
