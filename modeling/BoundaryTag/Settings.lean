import BoundaryTag.Layout

/-!
# Settings of a heap

`Settings.validate` rounds the chunk up to whole double words and accepts exactly the settings under
which the sentinels and one chunk fit below the limit and every block fits a tag word.
-/

set_option autoImplicit false

namespace BoundaryTag

structure Settings where
  /-- The least number of bytes by which the heap grows, and the size of its first block. -/
  chunk : Nat
  /-- Bytes reserved at the start, which the heap never passes. -/
  limit : Nat
  /-- Whether live blocks are tracked and foreign releases refused. -/
  checked : Bool
deriving DecidableEq

namespace Settings

def standard : Settings := ⟨4096, 20971520, false⟩

@[simp] abbrev sentinelBytes : Nat := 16

def validate (s : Settings) : Except Failure Settings := do
  if s.chunk = 0 then
    throw (.refused (.invalidSettings .zeroChunk))
  if maxBlock < s.chunk then
    throw (.refused (.invalidSettings .chunkTooLarge))
  let chunk ← (roundUp s.chunk).mapError Failure.trapped
  if s.limit < sentinelBytes + chunk then
    throw (.refused (.invalidSettings .noRoomForChunk))
  if maxBlock < s.limit then
    throw (.refused (.invalidSettings .limitTooLarge))
  return { s with chunk }

end Settings

end BoundaryTag
