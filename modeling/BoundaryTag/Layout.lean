import BoundaryTag.Trap

/-!
# Sizes and rounding

Tag words take four bytes, payloads start on multiples of eight, and a block holds at least two
tags and one double word. Rounding is checked against the 64-bit range at every step.
-/

set_option autoImplicit false

namespace BoundaryTag

@[simp] abbrev wordBytes : Nat := 4

@[simp] abbrev unitBytes : Nat := 8

@[simp] abbrev minBlock : Nat := 16

/-- The largest size a tag word holds: 32 bits, the low three of them clear. -/
@[simp] abbrev maxBlock : Nat := 4294967288

@[simp] abbrev addressLimit : Nat := 18446744073709551616

/-- Adds `unit - 1` to the value and clears the bits of `unit - 1`, so for a power of two the result
is the least multiple not below the value. The sum `value + unit` must lie in the 64-bit range, also
where the result would. -/
def roundUpTo (value unit : Nat) : Except Trap Nat := do
  if addressLimit ≤ value + unit then
    throw .overflow
  let top ← minus (value + unit) 1
  let mask ← minus unit 1
  return top - (top &&& mask)

def roundUp (value : Nat) : Except Trap Nat := roundUpTo value unitBytes

theorem roundUpTo_of_lt {value unit : Nat} (hunit : unit.isPowerOfTwo)
    (h : value + unit < addressLimit) :
    roundUpTo value unit = .ok ((value + unit - 1) / unit * unit) := by
  obtain ⟨k, rfl⟩ := hunit
  have hpos : 0 < 2 ^ k := Nat.two_pow_pos k
  have hand : (value + 2 ^ k - 1) &&& (2 ^ k - 1) = (value + 2 ^ k - 1) % 2 ^ k :=
    Nat.and_two_pow_sub_one_eq_mod _ k
  rw [roundUpTo, if_neg (Nat.not_le.2 h), minus_of_le (by omega), minus_of_le hpos,
    Nat.div_mul_self_eq_mod_sub_self, ← hand]
  rfl

theorem roundUpTo_of_le {value unit : Nat} (h : addressLimit ≤ value + unit) :
    roundUpTo value unit = .error .overflow := by
  rw [roundUpTo, if_pos h]
  rfl

theorem roundUp_of_lt {value : Nat} (h : value + 8 < addressLimit) :
    roundUp value = .ok ((value + 7) / 8 * 8) :=
  roundUpTo_of_lt ⟨3, rfl⟩ h

/-- The size of the block that serves a payload of `size` bytes: both tags and the payload, rounded
up to whole double words. There is none where the sum or the tag word would not hold it. -/
def blockSizeFor (size : Nat) : Option Nat :=
  let whole :=
    if size ≤ unitBytes then some minBlock
    else if size + 15 < addressLimit then some (unitBytes * ((size + 15) / unitBytes))
    else none
  whole.filter (· ≤ maxBlock)

theorem bounds_of_blockSizeFor {size want : Nat} (h : blockSizeFor size = some want) :
    16 ≤ want ∧ want % 8 = 0 ∧ want ≤ maxBlock ∧ size + 8 ≤ want := by
  simp only [blockSizeFor, unitBytes, minBlock, Option.filter_eq_some_iff, decide_eq_true_eq] at h
  obtain ⟨hwhole, hmax⟩ := h
  split at hwhole
  · obtain rfl := Option.some.inj hwhole
    omega
  · split at hwhole
    · obtain rfl := Option.some.inj hwhole
      omega
    · cases hwhole

end BoundaryTag
