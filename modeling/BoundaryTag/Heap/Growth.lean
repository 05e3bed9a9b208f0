import BoundaryTag.Heap.Carving

/-!
# Growing and creating a heap

The new bytes become one free block: the old epilogue is its header, and a new epilogue stands at the
new top.
-/

set_option autoImplicit false

namespace BoundaryTag

open HeapM

/-- Grows the heap by `bytes`, rounded up to whole double words, and returns the free block at the
top, joined with the one before it where that is free. -/
def extend (bytes : Nat) : HeapM Nat := do
  let size ← roundUp bytes
  let bp ← grow size
  record (.extended size bp)
  edit do
    writeTags bp ⟨size, false⟩
    Region.writeWord (← headerAt (bp + size)) (← Tag.encode ⟨0, true⟩)
  merge bp

def layOut : HeapM Unit := do
  let start ← grow Settings.sentinelBytes
  edit do
    Region.writeWord start 0
    Region.writeWord (start + 4) (← Tag.encode ⟨8, true⟩)
    Region.writeWord (start + 8) (← Tag.encode ⟨8, true⟩)
    Region.writeWord (start + 12) (← Tag.encode ⟨0, true⟩)

/-- A new heap with one free block of a chunk, in the region that the system reserves for it. -/
def Heap.create (settings : Settings) (answer : Except SystemError Nat) : Except Failure Session := do
  let settings ← settings.validate
  let arena ← (Arena.reserve answer settings.limit).mapError Failure.refused
  let live := if settings.checked then some LiveBlocks.empty else none
  let steps : HeapM Unit := do
    record (.reserved settings.limit)
    layOut
    discard (extend settings.chunk)
    record (.initialised settings.chunk settings.limit settings.checked)
  match steps ⟨⟨arena, settings, prologue, live⟩, #[]⟩ with
  | .ok _ session => return session
  | .error failure _ => throw failure

end BoundaryTag
