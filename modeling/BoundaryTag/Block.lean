import BoundaryTag.Tag

/-!
# Blocks and walks

A walk reads headers from a position on, each block giving the place of the next, and ends at the
first header of size zero or at the first one that cannot be read.
-/

set_option autoImplicit false

namespace BoundaryTag

structure Block where
  bp : Nat
  size : Nat
  allocated : Bool
deriving DecidableEq

/-- The blocks passed, the position where the walk ended, and the trap it met there, if any. -/
structure Walk where
  blocks : List Block
  stop : Nat
  trap : Option Trap
deriving DecidableEq

def Region.walk (r : Region) (bp : Nat) : Walk :=
  match _h : r.tagAt bp with
  | .error t => ⟨[], bp, some t⟩
  | .ok tag =>
    if _hs : tag.size = 0 then ⟨[], bp, none⟩
    else
      let rest := r.walk (bp + tag.size)
      { rest with blocks := ⟨bp, tag.size, tag.allocated⟩ :: rest.blocks }
termination_by r.size + 1 - bp
decreasing_by
  have := Region.bounds_of_tagAt _h
  omega

namespace Walk

def complete (w : Walk) : Except Trap (List Block) :=
  match w.trap with
  | some t => .error t
  | none => .ok w.blocks

/-- The first block that satisfies `p`. The walk goes no further than needed, so its trap counts
only when no block before it does. -/
def find? (w : Walk) (p : Block → Bool) : Except Trap (Option Block) :=
  match w.blocks.find? p with
  | some b => .ok (some b)
  | none => w.complete.map fun _ => none

/-- The walk as far as the blocks that begin at `last` or before. Its trap is met only when no block
begins beyond. -/
def upTo (w : Walk) (last : Nat) : Walk :=
  ⟨w.blocks.takeWhile (·.bp ≤ last), w.stop,
    if w.blocks.all (·.bp ≤ last) then w.trap else none⟩

end Walk

end BoundaryTag
