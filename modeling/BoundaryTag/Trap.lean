import BoundaryTag.Hex
import BoundaryTag.Refusal

/-!
# Traps

A trap ends the operation that meets it: an access outside the granted bytes, arithmetic that
leaves the 64-bit range, a block the caller does not own. A heap that is used as promised meets none.
-/

set_option autoImplicit false

namespace BoundaryTag

inductive Trap where
  /-- A read or write reaches past the bytes in hand. -/
  | outOfBounds
  /-- A sum or difference leaves the range from 0 to 2^64 - 1. -/
  | overflow
  /-- A block size that a tag word cannot hold. -/
  | unencodable
  /-- A block is recorded as live a second time. -/
  | handedOutTwice (bp : Nat)
  /-- A block is named for `action` that is not a live allocation. -/
  | notLive (action : String) (bp : Nat)
  /-- A search meets a block of size zero that it can never pass. -/
  | endlessSearch
  /-- A reallocation that must succeed was refused. -/
  | aborted (bp size : Nat) (why : Refusal)
deriving DecidableEq

def Trap.message : Trap → String
  | .outOfBounds => "access outside the heap"
  | .overflow => "arithmetic outside the address range"
  | .unencodable => "block size does not fit a tag"
  | .handedOutTwice bp => s!"block {hex bp} handed out twice"
  | .notLive action bp =>
    s!"{action} of block {hex bp}, which is not a live allocation (double free or foreign address)"
  | .endlessSearch => "search cannot pass a block of size zero"
  | .aborted bp size why => s!"realloc({hex bp}, {size}) failed: {why.message}"

inductive Failure where
  | refused (why : Refusal)
  | trapped (why : Trap)
deriving DecidableEq

def Failure.message : Failure → String
  | .refused why => why.message
  | .trapped why => why.message

def minus (m n : Nat) : Except Trap Nat :=
  if n ≤ m then .ok (m - n) else .error .overflow

theorem minus_of_le {m n : Nat} (h : n ≤ m) : minus m n = .ok (m - n) := if_pos h

end BoundaryTag
