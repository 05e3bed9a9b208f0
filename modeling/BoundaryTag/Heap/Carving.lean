import BoundaryTag.Heap.Basic

/-!
# Carving and merging

`occupy` turns a free block, or the first part of it, into an allocated one; `merge` joins a free
block with its free neighbours. Both keep the cursor off the inside of a block.
-/

set_option autoImplicit false

namespace BoundaryTag

open HeapM

/-- Allocates the first `want` bytes of the free block at `bp`. The rest becomes a free block when it
can stand as one; else it stays part of the block. A cursor on the block moves to the next one. -/
def occupy (bp want : Nat) : HeapM Unit := do
  let tag ← look (·.tagAt bp)
  let rest ← minus tag.size want
  if minBlock ≤ rest then
    edit do
      writeTags bp ⟨want, true⟩
      writeTags (bp + want) ⟨rest, false⟩
  else
    edit (writeTags bp ⟨tag.size, true⟩)
  if (← read Heap.cursor) = bp then
    moveCursor (← look (·.next bp))

/-- Joins the free block at `bp` with the block before it and the one after it, as far as they are
free, and returns where the joined block starts. A cursor inside it moves to its start. -/
def merge (bp : Nat) : HeapM Nat := do
  let before ← look (·.tagBefore bp)
  let after ← look fun r => do r.tagAt (← r.next bp)
  let own ← look (·.tagAt bp)
  let start ← if before.allocated then pure bp else minus bp before.size
  unless before.allocated && after.allocated do
    let low ← if before.allocated then pure 0 else Tag.size <$> look (·.tagAt start)
    let high := if after.allocated then 0 else after.size
    edit (writeTags start ⟨low + own.size + high, false⟩)
  let stop ← look (·.next start)
  let cursor ← read Heap.cursor
  if start < cursor ∧ cursor < stop then
    moveCursor start
  return start

end BoundaryTag
