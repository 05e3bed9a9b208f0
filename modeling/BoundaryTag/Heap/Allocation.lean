import BoundaryTag.Heap.Growth
import BoundaryTag.Heap.Payload
import BoundaryTag.Heap.Search

/-!
# Allocating, releasing and reallocating

The operations a caller uses. Where live blocks are tracked, a block that is not live is refused
before anything is changed; otherwise the caller must only name blocks that are.
-/

set_option autoImplicit false

namespace BoundaryTag

open HeapM

def obtainFree (size want : Nat) : HeapM (Option Nat) := do
  match ← query (·.search want) with
  | some bp =>
    moveCursor bp
    return some bp
  | none =>
    let chunk ← read (·.settings.chunk)
    match ← attempt (extend (max want chunk)) with
    | .ok bp => return some bp
    | .error why =>
      record (.allocationRefused size why)
      return none

/-- Hands out a block with room for `size` bytes; none for a request of zero bytes, for one that no
tag word could hold, and when the heap cannot grow. -/
def allocate (size : Nat) : HeapM (Option Nat) := do
  if size = 0 then
    return none
  match blockSizeFor size with
  | none =>
    record (.tooLarge size)
    return none
  | some want =>
    match ← obtainFree size want with
    | none => return none
    | some bp =>
      occupy bp want
      track (·.insert bp)
      record (.allocated size bp want)
      return some bp

def release (bp : Nat) : HeapM Unit := do
  track (·.erase bp "free")
  let tag ← look (·.tagAt bp)
  edit (writeTags bp ⟨tag.size, false⟩)
  record (.released bp tag.size)
  discard (merge bp)

/-- Moves the payload into a new block with room for `size` bytes, as much of it as both blocks hold,
and takes the old block back. A refusal leaves the old block as it was. -/
def reallocate (bp size : Nat) : HeapM Nat := do
  requireLive bp "realloc"
  if size = 0 then
    throw (.refused .zeroSize)
  match ← allocate size with
  | none =>
    let available ← read (·.arena.available)
    throw (.refused (.outOfMemory size available))
  | some moved =>
    let usable ← query (·.payloadSize bp)
    edit (Region.move bp (min size usable) moved)
    release bp
    record (.reallocated bp size moved)
    return moved

def reallocateOrAbort (bp size : Nat) : HeapM Nat := do
  match ← attempt (reallocate bp size) with
  | .ok moved => return moved
  | .error why =>
    record (.reallocationRefused bp size why)
    throw (.trapped (.aborted bp size why))

end BoundaryTag
