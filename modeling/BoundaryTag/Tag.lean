import BoundaryTag.Region

/-!
# Boundary tags

A block is named by the position `bp` of its payload. Its header word lies just before the payload
and its footer is its last word; both hold the block's size, a multiple of eight, and in the lowest
bit whether the block is allocated.

```text
         header       bp                                footer     next block
            │         │                                    │           │
   ┌────────▼─────────▼────────────────────────────────────▼───────────▼───
   │ ...    │ size|a  │            payload                 │ size|a │ size|a
   └────────┴─────────┴────────────────────────────────────┴────────┴──────
            ◄────────────────────── size ──────────────────────────►
```

Positions are not validated here: what a stray position reads is a tag as good as any, and only the
bounds of the region stop it.
-/

set_option autoImplicit false

namespace BoundaryTag

structure Tag where
  size : Nat
  allocated : Bool
deriving DecidableEq

namespace Tag

/-- Reads a word as a tag. The bits below the size, the lowest apart, are ignored. -/
def ofWord (w : UInt32) : Tag := ⟨w.toNat / unitBytes * unitBytes, w.toNat % 2 == 1⟩

def encode (t : Tag) : Except Trap UInt32 :=
  if t.size % unitBytes = 0 ∧ t.size ≤ maxBlock then
    .ok (UInt32.ofNat (t.size + t.allocated.toNat))
  else
    .error .unencodable

theorem size_ofWord_mod (w : UInt32) : (ofWord w).size % 8 = 0 := by
  simp [ofWord]

theorem size_ofWord_le (w : UInt32) : (ofWord w).size ≤ maxBlock := by
  have := w.toNat_lt
  simp only [ofWord, unitBytes, maxBlock]
  omega

theorem ofWord_of_encode {t : Tag} {w : UInt32} (h : t.encode = .ok w) : ofWord w = t := by
  obtain ⟨size, allocated⟩ := t
  simp only [encode] at h
  split at h
  · next hs =>
    obtain rfl := Except.ok.inj h
    simp only [unitBytes, maxBlock] at hs
    have hb := Bool.toNat_lt allocated
    have hn : (UInt32.ofNat (size + allocated.toNat)).toNat = size + allocated.toNat :=
      UInt32.toNat_ofNat_of_lt' (by simp only [UInt32.size]; omega)
    simp only [ofWord, hn, unitBytes, mk.injEq]
    refine ⟨by omega, ?_⟩
    cases allocated <;> simp <;> omega
  · cases h

end Tag

def headerAt (bp : Nat) : Except Trap Nat := minus bp wordBytes

namespace Region

def header (r : Region) (bp : Nat) : Except Trap UInt32 := do
  r.readWord (← headerAt bp)

def tagAt (r : Region) (bp : Nat) : Except Trap Tag :=
  Tag.ofWord <$> r.header bp

def footerAt (r : Region) (bp : Nat) : Except Trap Nat := do
  let tag ← r.tagAt bp
  minus (bp + tag.size) unitBytes

def footer (r : Region) (bp : Nat) : Except Trap UInt32 := do
  r.readWord (← r.footerAt bp)

def next (r : Region) (bp : Nat) : Except Trap Nat := do
  let tag ← r.tagAt bp
  return bp + tag.size

def tagBefore (r : Region) (bp : Nat) : Except Trap Tag := do
  Tag.ofWord <$> r.readWord (← minus bp unitBytes)

def previous (r : Region) (bp : Nat) : Except Trap Nat := do
  let tag ← r.tagBefore bp
  minus bp tag.size

theorem bounds_of_tagAt {r : Region} {bp : Nat} {t : Tag} (h : r.tagAt bp = .ok t) :
    4 ≤ bp ∧ bp ≤ r.size := by
  simp only [tagAt, header, headerAt, minus, readWord, wordBytes] at h
  split at h
  · simp only [bind, Except.bind] at h
    split at h
    · omega
    · cases h
  · cases h

end Region

/-- Writes one tag into the header and the footer of the block at `bp`, the header first: when only
the footer lies outside the region, the new header stays. -/
def writeTags (bp : Nat) (tag : Tag) : RegionM Unit := do
  let header ← headerAt bp
  let word ← tag.encode
  Region.writeWord header word
  Region.writeWord (← minus (bp + tag.size) unitBytes) word

end BoundaryTag
