import BoundaryTag.Fault
import BoundaryTag.Refusal

/-!
# Events

What the operations on a heap report while they run, each with its level and its text. The address
of the region itself is written `BASE`, positions in it as offsets.
-/

set_option autoImplicit false

namespace BoundaryTag

inductive Level where
  | trace
  | debug
  | warn
  | error
deriving DecidableEq

def Level.name : Level → String
  | .trace => "TRACE"
  | .debug => "DEBUG"
  | .warn => "WARN"
  | .error => "ERROR"

inductive Event where
  | reserved (bytes : Nat)
  | initialised (chunk limit : Nat) (checked : Bool)
  | extended (bytes bp : Nat)
  | tooLarge (size : Nat)
  | allocationRefused (size : Nat) (why : Refusal)
  | allocated (size bp blockSize : Nat)
  | released (bp blockSize : Nat)
  | reallocated (bp size moved : Nat)
  | reallocationRefused (bp size : Nat) (why : Refusal)
  | faultFound (fault : Fault)
deriving DecidableEq

namespace Event

def level : Event → Level
  | .allocated .. | .released .. | .reallocated .. => .trace
  | .faultFound _ => .warn
  | .reallocationRefused .. => .error
  | _ => .debug

def message : Event → String
  | .reserved bytes => s!"reserved {bytes} bytes at BASE"
  | .initialised chunk limit checked =>
    s!"heap initialised at BASE: chunk {chunk} bytes, limit {limit} bytes, checked {checked}"
  | .extended bytes bp => s!"extending heap by {bytes} bytes at offset {hex bp}"
  | .tooLarge size => s!"malloc({size}) exceeds the largest encodable block"
  | .allocationRefused size why => s!"malloc({size}) failed: {why.message}"
  | .allocated size bp blockSize => s!"malloc({size}) -> {hex bp} ({blockSize} byte block)"
  | .released bp blockSize => s!"free({hex bp}) ({blockSize} byte block)"
  | .reallocated bp size moved => s!"realloc({hex bp}, {size}) -> {hex moved}"
  | .reallocationRefused bp size why => s!"realloc({hex bp}, {size}) failed: {why.message}"
  | .faultFound fault => s!"heap check: {fault.message}"

end Event

end BoundaryTag
