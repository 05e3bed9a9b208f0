import BoundaryTag.Heap.Basic

/-!
# Searching for a free block

Next fit: the search goes from the cursor to the epilogue and then from the prologue up to the
cursor, and takes the first free block that is large enough.
-/

set_option autoImplicit false

namespace BoundaryTag

def Block.fits (want : Nat) (b : Block) : Bool := !b.allocated && want ≤ b.size

/-- Nothing stops the second part but the cursor: a block of size zero before it is never passed. -/
def Heap.search (h : Heap) (want : Nat) : Except Trap (Option Nat) := do
  match ← (h.region.walk h.cursor).find? (Block.fits want) with
  | some b => return some b.bp
  | none =>
    let around := h.region.walk prologue
    match (around.blocks.takeWhile (·.bp < h.cursor)).find? (Block.fits want) with
    | some b => return some b.bp
    | none =>
      if h.cursor ≤ around.stop then return none
      else throw (around.trap.getD .endlessSearch)

end BoundaryTag
