/-!
# Refusals

The failures a caller is expected to meet: a request that cannot be served, settings that cannot
work, a region the system will not reserve. Nothing has been changed when one is returned.
-/

set_option autoImplicit false

namespace BoundaryTag

/-- Why the system did not reserve a region. -/
inductive SystemError where
  | invalidArgument
  | outOfMemory
  | other (text : String)
deriving DecidableEq

def SystemError.code? : SystemError → Option Nat
  | .invalidArgument => some 22
  | .outOfMemory => some 12
  | .other _ => none

def SystemError.message : SystemError → String
  | .invalidArgument => "Invalid argument (os error 22)"
  | .outOfMemory => "Cannot allocate memory (os error 12)"
  | .other text => text

inductive SettingsFault where
  | zeroChunk
  | chunkTooLarge
  | noRoomForChunk
  | limitTooLarge
  | other (text : String)
deriving DecidableEq

def SettingsFault.message : SettingsFault → String
  | .zeroChunk => "chunk size must be non-zero"
  | .chunkTooLarge => "chunk size does not fit a block tag"
  | .noRoomForChunk => "max heap cannot hold the sentinels and one chunk"
  | .limitTooLarge => "max heap exceeds the 32-bit size encoding"
  | .other text => text

inductive Refusal where
  | reservation (cause : SystemError)
  | outOfMemory (requested available : Nat)
  | invalidSettings (fault : SettingsFault)
  | zeroSize
deriving DecidableEq

namespace Refusal

def message : Refusal → String
  | .reservation cause => s!"failed to reserve heap region: {cause.message}"
  | .outOfMemory requested available =>
    s!"out of memory: requested {requested} bytes, {available} bytes left in the region"
  | .invalidSettings fault => s!"invalid heap configuration: {fault.message}"
  | .zeroSize => "zero-sized request"

def cause? : Refusal → Option SystemError
  | .reservation cause => some cause
  | _ => none

end Refusal

end BoundaryTag
