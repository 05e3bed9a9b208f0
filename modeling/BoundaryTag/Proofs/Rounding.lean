import BoundaryTag.Layout
import Mathlib.Order.Bounds.Basic

/-!
# Rounding

Rounding finds the least multiple of a power of two that is not below a value, wherever that multiple is
in the 64-bit range, with one exception for each power: for the greatest multiple in the range, which
is its own least multiple, the sum that comes first leaves the range. The size of the block for a
request is the least that serves it, and no step of its arithmetic leaves the range.
-/

set_option autoImplicit false

namespace BoundaryTag

section

variable {unit value n : Nat}

def LeastMultiple (unit value n : Nat) : Prop := IsLeast {m | unit ∣ m ∧ value ≤ m} n

theorem leastMultiple_iff (hpos : 0 < unit) :
    LeastMultiple unit value n ↔ n = (value + unit - 1) / unit * unit := by
  have hquotient : LeastMultiple unit value ((value + unit - 1) / unit * unit) := by
    constructor
    · have hbelow := Nat.lt_div_mul_add hpos (a := value + unit - 1)
      exact ⟨Nat.dvd_mul_left _ _, by omega⟩
    · rintro m ⟨⟨q, rfl⟩, hle⟩
      have hq : (value + unit - 1) / unit < q + 1 :=
        Nat.div_lt_of_lt_mul (by rw [Nat.mul_succ]; omega)
      calc (value + unit - 1) / unit * unit
          ≤ q * unit := Nat.mul_le_mul_right unit (Nat.le_of_lt_succ hq)
        _ = unit * q := Nat.mul_comm q unit
  exact ⟨fun h => h.unique hquotient, fun h => h ▸ hquotient⟩

theorem leastMultiple_self (h : unit ∣ value) : LeastMultiple unit value value :=
  ⟨⟨h, Nat.le_refl value⟩, fun _ hm => hm.2⟩

theorem add_unit_le (hunit : unit.isPowerOfTwo) (hword : unit < addressLimit) (hn : unit ∣ n)
    (hlt : n < addressLimit) : n + unit ≤ addressLimit := by
  have hlimit : unit ∣ addressLimit := by
    obtain ⟨k, rfl⟩ := hunit
    have hk : k < 64 := (Nat.pow_lt_pow_iff_right (by decide)).1 hword
    exact Nat.pow_dvd_pow 2 hk.le
  have hgap : unit ≤ addressLimit - n :=
    Nat.le_of_dvd (Nat.sub_pos_of_lt hlt) (Nat.dvd_sub hlimit hn)
  omega

theorem roundUpTo_eq (hunit : unit.isPowerOfTwo) (hword : unit < addressLimit)
    (hleast : LeastMultiple unit value n) (hn : n < addressLimit) :
    roundUpTo value unit = if value + unit = addressLimit then .error .overflow else .ok n := by
  have hreach := add_unit_le hunit hword hleast.1.1 hn
  have hle : value ≤ n := hleast.1.2
  split
  · next htop => exact roundUpTo_of_le htop.ge
  · next htop =>
    have hpos := Nat.pos_of_isPowerOfTwo hunit
    rw [roundUpTo_of_lt hunit (by omega), ← (leastMultiple_iff hpos).1 hleast]

theorem leastMultiple_of_roundUpTo (hunit : unit.isPowerOfTwo) (h : roundUpTo value unit = .ok n) :
    LeastMultiple unit value n ∧ n < addressLimit := by
  by_cases hrange : value + unit < addressLimit
  · rw [roundUpTo_of_lt hunit hrange] at h
    obtain rfl := Except.ok.inj h
    have hpos := Nat.pos_of_isPowerOfTwo hunit
    have hle := Nat.div_mul_le_self (value + unit - 1) unit
    exact ⟨(leastMultiple_iff hpos).2 rfl, by omega⟩
  · rw [roundUpTo_of_le (Nat.not_lt.1 hrange)] at h
    cases h

/-- What `round` makes of the values that have a least multiple of `unit` in the range, of the multiples
among them, and of its own results. -/
structure RoundsUp (round : Nat → Except Trap Nat) (unit : Nat) : Prop where
  least : ∀ value n, LeastMultiple unit value n → n < addressLimit →
    round value = if value + unit = addressLimit then .error .overflow else .ok n
  multiple : ∀ value, unit ∣ value → value < addressLimit →
    round value = if value + unit = addressLimit then .error .overflow else .ok value
  again : ∀ value n, round value = .ok n →
    round n = if n + unit = addressLimit then .error .overflow else .ok n

theorem roundsUp_roundUpTo (hunit : unit.isPowerOfTwo) (hword : unit < addressLimit) :
    RoundsUp (roundUpTo · unit) unit where
  least _ _ hleast hn := roundUpTo_eq hunit hword hleast hn
  multiple _ hvalue hlt := roundUpTo_eq hunit hword (leastMultiple_self hvalue) hlt
  again _ _ hround := by
    obtain ⟨hleast, hn⟩ := leastMultiple_of_roundUpTo hunit hround
    exact roundUpTo_eq hunit hword (leastMultiple_self hleast.1.1) hn

/-- Rounding to a power of two in the range, and rounding to double words: for all values but one, the
least multiple is found wherever it is in the range. -/
theorem rounding_finds_least (hunit : unit.isPowerOfTwo) (hword : unit < addressLimit) :
    RoundsUp (roundUpTo · unit) unit ∧ RoundsUp roundUp unitBytes :=
  ⟨roundsUp_roundUpTo hunit hword, roundsUp_roundUpTo ⟨3, rfl⟩ (by decide)⟩

theorem high_values_find_least : Nat.isPowerOfTwo 4096 ∧ 4096 < addressLimit ∧
    LeastMultiple 4096 18446744073709547519 18446744073709547520 ∧
    roundUpTo 18446744073709547519 4096 = .ok 18446744073709547520 ∧
    roundUpTo 18446744073709547520 4096 = .error .overflow ∧
    8 ∣ 18446744073709551600 ∧ roundUp 18446744073709551600 = .ok 18446744073709551600 := by
  -- A value that is rounded to the greatest multiple of a page, which itself is not rounded
  -- again, and the greatest multiple of eight that is.
  have hunit : Nat.isPowerOfTwo 4096 := ⟨12, by decide⟩
  have hleast : LeastMultiple 4096 18446744073709547519 18446744073709547520 :=
    (leastMultiple_iff (by decide)).2 (by decide)
  obtain ⟨hpages, hdouble⟩ := rounding_finds_least hunit (by decide)
  have hfound := hpages.least _ _ hleast (by decide)
  exact ⟨hunit, by decide, hleast, hfound, hpages.again _ _ hfound, by decide,
    hdouble.multiple 18446744073709551600 (by decide) (by decide)⟩

end

/-- The greatest multiple of eight in the range is its own least multiple, but is not rounded. -/
theorem top_multiple_traps : LeastMultiple 8 18446744073709551608 18446744073709551608 ∧
    18446744073709551608 < addressLimit ∧
    roundUp 18446744073709551608 = .error .overflow ∧
    roundUpTo 18446744073709551608 8 = .error .overflow := by
  refine ⟨leastMultiple_self (by decide), by decide, ?_, ?_⟩
  · exact roundUpTo_of_le (by decide)
  · exact roundUpTo_of_le (by decide)

/-- A block of `want` bytes is the least that serves a payload of `size` bytes. -/
def LeastBlock (size want : Nat) : Prop := IsLeast {n | n % 8 = 0 ∧ max 16 (size + 8) ≤ n} want

theorem leastBlock_iff {size want : Nat} :
    LeastBlock size want ↔ want = max 16 ((size + 15) / 8 * 8) := by
  have hfits : max 16 ((size + 15) / 8 * 8) % 8 = 0 ∧
      max 16 (size + 8) ≤ max 16 ((size + 15) / 8 * 8) := by omega
  constructor
  · rintro ⟨⟨hmod, hle⟩, hleast⟩
    have := hleast hfits
    omega
  · rintro rfl
    refine ⟨hfits, ?_⟩
    rintro n ⟨hmod, hle⟩
    omega

theorem blockSizeFor_eq {size want : Nat} (h : LeastBlock size want) :
    blockSizeFor size = if want ≤ maxBlock then some want else none := by
  have hwant := leastBlock_iff.1 h
  have hfilter : ∀ n, (some n).filter (· ≤ maxBlock) = if n ≤ maxBlock then some n else none := by
    intro n
    simp [Option.filter]
  rw [blockSizeFor]
  split
  · have hmin : want = minBlock := by simp only [minBlock, unitBytes] at *; omega
    rw [hfilter, hmin]
  · split
    · have hround : want = unitBytes * ((size + 15) / unitBytes) := by
        simp only [unitBytes] at *
        omega
      rw [hfilter, hround]
    · next hover =>
      rw [if_neg]
      · rfl
      · simp only [addressLimit, maxBlock] at *
        omega

theorem blockSizeFor_eq_some_iff {size want : Nat} :
    blockSizeFor size = some want ↔ size ≤ maxBlock - 8 ∧ LeastBlock size want := by
  have hleast : LeastBlock size (max 16 ((size + 15) / 8 * 8)) := leastBlock_iff.2 rfl
  have hreach : max 16 ((size + 15) / 8 * 8) ≤ maxBlock ↔ size ≤ maxBlock - 8 := by
    simp only [maxBlock]
    omega
  rw [blockSizeFor_eq hleast, leastBlock_iff, ← hreach]
  split
  · next hmax => rw [Option.some_inj, eq_comm, and_iff_right hmax]
  · next hmax => simp [hmax]

theorem blockSizeFor_eq_none_iff {size : Nat} : blockSizeFor size = none ↔ maxBlock - 8 < size := by
  constructor
  · intro hnone
    by_contra hsize
    have hsome := blockSizeFor_eq_some_iff.2 ⟨Nat.not_lt.1 hsize, leastBlock_iff.2 rfl⟩
    rw [hnone] at hsome
    cases hsome
  · intro hsize
    by_contra hsome
    obtain ⟨want, hwant⟩ := Option.ne_none_iff_exists'.1 hsome
    exact absurd (blockSizeFor_eq_some_iff.1 hwant).1 (Nat.not_le.2 hsize)

theorem LeastBlock.mono {size larger want more : Nat} (h : LeastBlock size want)
    (h' : LeastBlock larger more) (hle : size ≤ larger) : want ≤ more :=
  IsLeast.mono h' h fun _ hn => ⟨hn.1, by have := hn.2; omega⟩

def times (m n : Nat) : Except Trap Nat :=
  if m * n < addressLimit then .ok (m * n) else .error .overflow

/-- The size of the block for a request, with the one product that `blockSizeFor` takes on trust
checked. -/
def checkedBlockSizeFor (size : Nat) : Except Trap (Option Nat) := do
  let whole ←
    if size ≤ unitBytes then pure (some minBlock)
    else if size + 15 < addressLimit then some <$> times unitBytes ((size + 15) / unitBytes)
    else pure none
  return whole.filter (· ≤ maxBlock)

theorem checkedBlockSizeFor_eq (size : Nat) : checkedBlockSizeFor size = .ok (blockSizeFor size) := by
  rw [checkedBlockSizeFor, blockSizeFor]
  split
  · rfl
  · split
    · next hsum =>
      -- The product stays below the sum that was tried before it.
      have hproduct : unitBytes * ((size + 15) / unitBytes) < addressLimit :=
        Nat.lt_of_le_of_lt (Nat.mul_div_le _ _) hsum
      rw [times, if_pos hproduct]
      rfl
    · rfl

/-- What is asked for to serve any request: no step of the sum traps, there is a size exactly as far as
a tag can hold the block, it is the least that serves, and larger requests ask for no less. -/
theorem requests_ask_for_least (size : Nat) :
    checkedBlockSizeFor size = .ok (blockSizeFor size) ∧
    (blockSizeFor size = none ↔ maxBlock - 8 < size) ∧
    (∀ want, blockSizeFor size = some want ↔ size ≤ maxBlock - 8 ∧ LeastBlock size want) ∧
    ∀ larger want more, size ≤ larger → blockSizeFor size = some want →
      blockSizeFor larger = some more → want ≤ more := by
  refine ⟨checkedBlockSizeFor_eq size, blockSizeFor_eq_none_iff, fun _ => blockSizeFor_eq_some_iff, ?_⟩
  intro larger want more hle hwant hmore
  exact (blockSizeFor_eq_some_iff.1 hwant).2.mono (blockSizeFor_eq_some_iff.1 hmore).2 hle

theorem extreme_requests_ask_for_least :
    blockSizeFor 4294967280 = some 4294967288 ∧ LeastBlock 4294967280 4294967288 ∧
    checkedBlockSizeFor 4294967281 = .ok none ∧
    8 ≤ 9 ∧ blockSizeFor 8 = some 16 ∧ blockSizeFor 9 = some 24 ∧ 16 ≤ 24 := by
  -- The greatest request that a tag can hold, the one after it, and two requests of which the
  -- smaller takes all of the least block.
  have hlast : blockSizeFor 4294967280 = some 4294967288 := by decide
  have hsmall : blockSizeFor 8 = some 16 := by decide
  have hlarger : blockSizeFor 9 = some 24 := by decide
  obtain ⟨-, -, hsome, -⟩ := requests_ask_for_least 4294967280
  obtain ⟨hchecked, hnone, -, -⟩ := requests_ask_for_least 4294967281
  obtain ⟨-, -, -, hmono⟩ := requests_ask_for_least 8
  rw [hnone.2 (by decide)] at hchecked
  exact ⟨hlast, ((hsome _).1 hlast).2, hchecked, by decide, hsmall, hlarger,
    hmono 9 16 24 (by decide) hsmall hlarger⟩

end BoundaryTag
