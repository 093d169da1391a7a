import SrkOS.Impl.Http

/-!
# The ESP-NOW receiver (`src/tasks/espnow.rs`)
-/

namespace SrkOS.Impl

def parseEspnowPayload (fromSlice : List UInt8 → Option ApiCommand) (data : List UInt8) :
    Option Command :=
  parseApiBody fromSlice data

end SrkOS.Impl
