import BoundaryTag.Proofs.Tags

/-!
# Granted bytes

An arena grants bytes at its top only, never past its capacity, and every byte it grants is zero. One
formula for each step tells what it makes of all reserved bytes, those above the top included: a grant
changes none of them, a write reaches none above the top, and a reset leaves zeros behind. So above the
top there are only zeros, however the arena has been used.
-/

set_option autoImplicit false

namespace BoundaryTag

namespace Arena

variable {a : Arena} {count pos : Nat}

def topped (count : Nat) (a : Arena) : Arena :=
  let reused := a.spare.bytes.extract 0 count
  { a with
    granted := ⟨a.granted.bytes ++ reused ++ zeros (count - reused.size)⟩
    spare := ⟨a.spare.bytes.extract count a.spare.size⟩ }

theorem grow_granted (hroom : count ≤ a.available) : grow count a = .ok a.size (a.topped count) := by
  obtain ⟨base, ⟨granted⟩, ⟨spare⟩, capacity⟩ := a
  exact if_neg (Nat.not_lt.2 hroom)

theorem grow_refused (hfull : a.available < count) :
    grow count a = .error (.outOfMemory count a.available) a := if_pos hfull

theorem size_topped (count : Nat) (a : Arena) : (a.topped count).size = a.size + count := by
  have hreused : (a.spare.bytes.extract 0 count).size ≤ count := by
    rw [ByteArray.size_extract]
    omega
  show (a.granted.bytes ++ _ ++ _).size = a.granted.bytes.size + count
  rw [ByteArray.size_append, ByteArray.size_append, size_zeros]
  omega

theorem byte_topped (count : Nat) (a : Arena) (pos : Nat) : (a.topped count).byte pos = a.byte pos := by
  have hsize := size_topped count a
  have hreused : (a.spare.bytes.extract 0 count).size = min count a.spare.size := by
    rw [ByteArray.size_extract, Nat.sub_zero]
    rfl
  have hgranted : (a.topped count).granted.byte pos = if pos < a.size then a.granted.byte pos
      else if pos < a.size + min count a.spare.size then a.spare.byte (pos - a.size) else 0 := by
    have hold : a.granted.bytes.size = a.size := rfl
    rw [topped, Region.byte_append, Region.byte_append, ByteArray.size_append, Region.byte_zeros,
      Region.byte_cut, hold, hreused, Nat.zero_add]
    by_cases hlow : pos < a.size
    · rw [if_pos (by omega), if_pos hlow, if_pos hlow]
    · by_cases hmid : pos < a.size + min count a.spare.size
      · rw [if_pos hmid, if_neg hlow, if_pos (by omega), if_neg hlow, if_pos hmid]
      · rw [if_neg hmid, if_neg hlow, if_neg hmid]
  have hspare : (a.topped count).spare.byte (pos - (a.size + count)) =
      a.spare.byte (count + (pos - (a.size + count))) := by
    rw [topped, Region.byte_cut]
    split
    · rfl
    · exact (Region.byte_of_size_le (by omega)).symm
  have hbeyond : a.spare.size ≤ pos - a.size → a.spare.byte (pos - a.size) = 0 := Region.byte_of_size_le
  rw [byte, byte, hsize, hgranted, hspare]
  by_cases hold : pos < a.size
  · rw [if_pos (by omega), if_pos hold, if_pos hold]
  · rw [if_neg hold, if_neg hold]
    by_cases hnew : pos < a.size + count
    · rw [if_pos hnew]
      split
      · rfl
      · exact (hbeyond (by omega)).symm
    · rw [if_neg hnew]
      congr 1
      omega

theorem granted_topped (hpos : pos < a.size + count) :
    (a.topped count).granted.byte pos = a.byte pos := by
  rw [← byte_topped count, byte, if_pos (size_topped count a ▸ hpos)]

theorem byte_reset (a : Arena) (pos : Nat) :
    a.reset.byte pos = if pos < a.size then 0 else a.byte pos := by
  have hspare : a.reset.byte pos = (⟨zeros a.size ++ a.spare.bytes⟩ : Region).byte pos := rfl
  rw [hspare, Region.byte_append, size_zeros, Region.byte_zeros, byte]
  split <;> rfl

def inked (pos : Nat) (b : UInt8) (a : Arena) : Arena :=
  { a with granted := a.granted.blit pos ⟨#[b]⟩ }

theorem write_granted (b : UInt8) (hin : pos < a.size) :
    edit (Region.writeByte pos b) a = .ok () (a.inked pos b) := by
  have hwrite : Region.writeByte pos b a.granted = .ok () (a.granted.blit pos ⟨#[b]⟩) := if_pos hin
  simp only [edit, hwrite, inked]

theorem write_refused (b : UInt8) (hout : a.size ≤ pos) :
    edit (Region.writeByte pos b) a = .error .outOfBounds a := by
  have hwrite : Region.writeByte pos b a.granted = .error .outOfBounds a.granted :=
    if_neg (Nat.not_lt.2 hout)
  simp only [edit, hwrite]

theorem size_inked (pos : Nat) (b : UInt8) (a : Arena) : (a.inked pos b).size = a.size :=
  Region.size_blit _ _ _

theorem byte_inked (b : UInt8) (hin : pos < a.size) {i : Nat} (hi : i ≠ pos) :
    (a.inked pos b).byte i = a.byte i := by
  have hfit : pos + (⟨#[b]⟩ : ByteArray).size ≤ a.granted.size := hin
  have hsame : (a.inked pos b).granted.byte i = a.granted.byte i := by
    rw [inked, Region.byte_blit i hfit, if_neg]
    change ¬ (pos ≤ i ∧ i < pos + 1)
    omega
  rw [byte, byte, size_inked, hsame]
  rfl

inductive Use where
  | grow (count : Nat)
  | reset
  | write (pos : Nat) (b : UInt8)

def after (a : Arena) : Use → Arena
  | .grow count =>
    match grow count a with
    | .ok _ a => a
    | .error _ a => a
  | .reset => a.reset
  | .write pos b =>
    match edit (Region.writeByte pos b) a with
    | .ok _ a => a
    | .error _ a => a

/-- Nothing is granted beyond the capacity, and what is not granted is zero. -/
structure Blank (a : Arena) : Prop where
  bounded : a.size ≤ a.capacity
  zero : ∀ pos, a.size ≤ pos → a.byte pos = 0

theorem blank_of_reserve {answer : Except SystemError Nat} {capacity : Nat}
    (h : reserve answer capacity = .ok a) :
    a.Blank ∧ answer = .ok a.base ∧ a.capacity = capacity := by
  cases answer with
  | error cause => cases h
  | ok base =>
    obtain rfl := Except.ok.inj h
    exact ⟨⟨Nat.zero_le _, fun _ _ => rfl⟩, rfl, rfl⟩

theorem Blank.topped (h : a.Blank) (hroom : count ≤ a.available) : (a.topped count).Blank := by
  have hsize := size_topped count a
  have hcapacity : (a.topped count).capacity = a.capacity := rfl
  refine ⟨?_, fun pos hpos => ?_⟩
  · have := h.bounded
    rw [available] at hroom
    omega
  · rw [byte_topped]
    exact h.zero pos (by omega)

theorem Blank.reset (h : a.Blank) : a.reset.Blank := by
  refine ⟨Nat.zero_le _, fun pos _ => ?_⟩
  rw [byte_reset]
  split
  · rfl
  · next hpos => exact h.zero pos (Nat.le_of_not_lt hpos)

theorem Blank.inked (h : a.Blank) (b : UInt8) (hin : pos < a.size) : (a.inked pos b).Blank := by
  have hsize := size_inked pos b a
  refine ⟨hsize ▸ h.bounded, fun i hi => ?_⟩
  rw [byte_inked b hin (by omega)]
  exact h.zero i (by omega)

theorem Blank.after (h : a.Blank) (use : Use) :
    (a.after use).Blank ∧ (a.after use).base = a.base ∧ (a.after use).capacity = a.capacity := by
  cases use with
  | grow count =>
    by_cases hroom : count ≤ a.available
    · have hafter : a.after (.grow count) = a.topped count := by
        simp only [Arena.after, grow_granted hroom]
      rw [hafter]
      exact ⟨h.topped hroom, rfl, rfl⟩
    · have hafter : a.after (.grow count) = a := by
        simp only [Arena.after, grow_refused (Nat.lt_of_not_le hroom)]
      rw [hafter]
      exact ⟨h, rfl, rfl⟩
  | reset => exact ⟨h.reset, rfl, rfl⟩
  | write pos b =>
    by_cases hin : pos < a.size
    · have hafter : a.after (.write pos b) = a.inked pos b := by
        simp only [Arena.after, write_granted b hin]
      rw [hafter]
      exact ⟨h.inked b hin, rfl, rfl⟩
    · have hafter : a.after (.write pos b) = a := by
        simp only [Arena.after, write_refused b (Nat.le_of_not_lt hin)]
      rw [hafter]
      exact ⟨h, rfl, rfl⟩

theorem Blank.afterAll (h : a.Blank) (uses : List Use) :
    (uses.foldl Arena.after a).Blank ∧ (uses.foldl Arena.after a).base = a.base ∧
      (uses.foldl Arena.after a).capacity = a.capacity := by
  induction uses generalizing a with
  | nil => exact ⟨h, rfl, rfl⟩
  | cons use uses ih =>
    obtain ⟨hstep, hbase, hcapacity⟩ := h.after use
    obtain ⟨hrest, hbase', hcapacity'⟩ := ih hstep
    exact ⟨hrest, hbase'.trans hbase, hcapacity'.trans hcapacity⟩

/-- How an arena of `capacity` bytes at `base` stands and what it answers: a grant starts at the top,
keeps what was granted before and adds zeros; one that does not fit changes nothing. -/
structure Granting (base capacity : Nat) (a : Arena) : Prop where
  base : a.base = base
  bounded : a.size ≤ capacity
  zero : ∀ pos, a.size ≤ pos → pos < capacity → a.byte pos = 0
  grants : ∀ count, count ≤ capacity - a.size → ∃ a', grow count a = .ok a.size a' ∧
    a'.size = a.size + count ∧ (∀ pos, pos < a.size → a'.granted.byte pos = a.granted.byte pos) ∧
      ∀ pos, a.size ≤ pos → pos < a'.size → a'.granted.byte pos = 0
  refuses : ∀ count, capacity - a.size < count →
    grow count a = .error (.outOfMemory count (capacity - a.size)) a

theorem Blank.granting (h : a.Blank) : a.Granting a.base a.capacity := by
  refine ⟨rfl, h.bounded, fun pos hpos _ => h.zero pos hpos, fun count hroom => ?_,
    fun count hfull => grow_refused hfull⟩
  have hsize := size_topped count a
  refine ⟨a.topped count, grow_granted hroom, hsize, fun pos hpos => ?_, fun pos hlow hpos => ?_⟩
  · rw [granted_topped (by omega), byte, if_pos hpos]
  · rw [granted_topped (by omega), h.zero pos hlow]

/-- However an arena has been used since the system reserved it, it keeps to its bounds and grants zeros.
The top is computed unchecked, and does not overflow: the capacity is a machine word. -/
theorem used_arena_grants_zeros {answer : Except SystemError Nat} {capacity : Nat} {a : Arena}
    (hword : capacity < addressLimit) (hreserve : reserve answer capacity = .ok a) (uses : List Use) :
    (uses.foldl after a).Granting a.base capacity ∧
      ∀ count ≤ capacity - (uses.foldl after a).size, (uses.foldl after a).size + count < addressLimit := by
  obtain ⟨hblank, -, rfl⟩ := blank_of_reserve hreserve
  obtain ⟨hused, hbase, hcapacity⟩ := hblank.afterAll uses
  have hgranting := hused.granting
  rw [hbase, hcapacity] at hgranting
  have hbounded := hgranting.bounded
  exact ⟨hgranting, fun count hroom => by omega⟩

def soiling : List Use :=
  [.grow 16, .write 3 9, .grow 100, .reset, .grow 8, .write 7 5, .write 8 1, .reset, .grow 40, .grow 25]

theorem soiled_arena_grants_zeros : ∃ a, 64 < addressLimit ∧ reserve (.ok 4096) 64 = .ok a ∧
    ((soiling.take 3).foldl after a).byte 3 = 9 ∧ ((soiling.take 7).foldl after a).byte 7 = 5 ∧
    (soiling.foldl after a).size = 40 ∧
    (soiling.foldl after a).byte 3 = 0 ∧ (soiling.foldl after a).byte 7 = 0 ∧
    (soiling.foldl after a).Granting 4096 64 ∧
      ∀ count ≤ 64 - (soiling.foldl after a).size, (soiling.foldl after a).size + count < addressLimit := by
  -- What was written stood there until the reset, and is gone when the bytes are granted again.
  obtain ⟨a, ha⟩ : ∃ a, reserve (.ok 4096) 64 = .ok a := ⟨_, rfl⟩
  have hword : 64 < addressLimit := by decide
  obtain ⟨hgranting, hfits⟩ := used_arena_grants_zeros hword ha soiling
  obtain rfl := Except.ok.inj ha
  exact ⟨_, hword, rfl, by decide +kernel, by decide +kernel, by decide +kernel, by decide +kernel,
    by decide +kernel, hgranting, hfits⟩

end Arena

end BoundaryTag
