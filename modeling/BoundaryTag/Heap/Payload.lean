import BoundaryTag.Heap.Basic

/-!
# Payloads and addresses

The bytes of a block that belong to its owner, and the way between blocks and addresses. A block is
taken at its header's word: whether it is live is not asked.
-/

set_option autoImplicit false

namespace BoundaryTag

namespace Heap

def payloadSize (h : Heap) (bp : Nat) : Except Trap Nat := do
  let tag ← h.region.tagAt bp
  minus tag.size unitBytes

def payload (h : Heap) (bp : Nat) : Except Trap ByteArray := do
  h.region.readBytes bp (← h.payloadSize bp)

/-- Address of the payload. Addresses wrap around at the end of the address range. -/
def addressOf (h : Heap) (bp : Nat) : Nat := (h.arena.base + bp) % addressLimit

/-- The allocated block whose payload starts exactly at the address, looked for among the blocks up to
there. -/
def allocatedAt (h : Heap) (address : Nat) : Except Trap (Option Nat) :=
  let offset := address - h.arena.base
  if address < h.arena.base ∨ offset % unitBytes ≠ 0 ∨ h.size ≤ offset then .ok none
  else
    let found := (h.walk.upTo offset).find? fun b => b.bp = offset && b.allocated
    found.map (Option.map Block.bp)

end Heap

def writePayload (bp start : Nat) (data : ByteArray) : HeapM Unit := do
  let payload ← HeapM.query (·.payload bp)
  if start + data.size ≤ payload.size then
    HeapM.edit (Region.writeBytes (bp + start) data)
  else
    throw (.trapped .outOfBounds)

end BoundaryTag
