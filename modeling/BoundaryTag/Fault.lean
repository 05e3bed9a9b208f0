import BoundaryTag.Hex

/-!
# Faults

The structural problems a check of a heap can find, with the text of each and the form shown in
diagnostics, where positions are decimal.
-/

set_option autoImplicit false

namespace BoundaryTag

inductive Fault where
  | badPrologue
  | badEpilogue
  /-- The payload's address is not a multiple of eight. -/
  | misaligned (bp : Nat)
  /-- Header and footer differ. -/
  | tagMismatch (bp : Nat) (header footer : UInt32)
  /-- The size is below the least block or not a multiple of eight. -/
  | badSize (bp size : Nat)
  /-- The block and the one before it are both free. -/
  | adjacentFree (bp : Nat)
  /-- The block reaches past the top of the heap. -/
  | outOfBounds (bp : Nat)
  /-- The search cursor is not at a block. -/
  | strayCursor (bp : Nat)
deriving DecidableEq

namespace Fault

def message : Fault → String
  | .badPrologue => "bad prologue header"
  | .badEpilogue => "bad epilogue header"
  | .misaligned bp => s!"{hex bp} is not doubleword aligned"
  | .tagMismatch bp header footer =>
    s!"{hex bp}: header {hex header.toNat} does not match footer {hex footer.toNat}"
  | .badSize bp size => s!"{hex bp}: bad block size {size}"
  | .adjacentFree bp => s!"{hex bp}: free block follows another free block"
  | .outOfBounds bp => s!"{hex bp}: block extends past the heap"
  | .strayCursor bp => s!"search cursor {hex bp} is not on a block boundary"

def debugText : Fault → String
  | .badPrologue => "BadPrologue"
  | .badEpilogue => "BadEpilogue"
  | .misaligned bp => s!"Misaligned(BlockPtr({bp}))"
  | .tagMismatch bp header footer =>
    s!"TagMismatch \x7b bp: BlockPtr({bp}), header: {header.toNat}, footer: {footer.toNat} \x7d"
  | .badSize bp size => s!"BadSize \x7b bp: BlockPtr({bp}), size: {size} \x7d"
  | .adjacentFree bp => s!"AdjacentFree(BlockPtr({bp}))"
  | .outOfBounds bp => s!"OutOfBounds(BlockPtr({bp}))"
  | .strayCursor bp => s!"RoverOutOfHeap(BlockPtr({bp}))"

end Fault

end BoundaryTag
