import BoundaryTag.Layout

/-!
# Regions of bytes

A region is a run of bytes addressed from zero. Tag words are little-endian and may stand at any
position. Every write goes through `Region.blit`, whose effect on each byte is `Region.byte_blit`;
accesses that leave the region are traps and write nothing.
-/

set_option autoImplicit false

namespace BoundaryTag

structure Region where
  bytes : ByteArray

instance : DecidableEq Region := fun ⟨⟨a⟩⟩ ⟨⟨b⟩⟩ =>
  match decEq a b with
  | isTrue h => isTrue (congrArg (fun data => (⟨⟨data⟩⟩ : Region)) h)
  | isFalse h => isFalse fun heq => h (congrArg (fun r : Region => r.bytes.data) heq)

/-- A run of `n` zero bytes, built by doubling. -/
def zeros (n : Nat) : ByteArray :=
  if n = 0 then ByteArray.empty
  else
    let half := zeros (n / 2)
    if n % 2 = 0 then half ++ half else half ++ half ++ ⟨#[0]⟩

theorem size_zeros (n : Nat) : (zeros n).size = n := by
  fun_induction zeros n with
  | case1 => rfl
  | case2 n hn half he ih =>
    rw [ByteArray.size_append, ih]
    omega
  | case3 n hn half he ih =>
    rw [ByteArray.size_append, ByteArray.size_append, ih]
    change n / 2 + n / 2 + 1 = n
    omega

def bytesOfWord (w : UInt32) : ByteArray :=
  ⟨#[UInt8.ofNat (w.toNat % 256), UInt8.ofNat (w.toNat / 256 % 256),
    UInt8.ofNat (w.toNat / 65536 % 256), UInt8.ofNat (w.toNat / 16777216)]⟩

namespace Region

def size (r : Region) : Nat := r.bytes.size

/-- The byte at `pos`; zero outside the region. -/
def byte (r : Region) (pos : Nat) : UInt8 :=
  if h : pos < r.bytes.size then r.bytes[pos] else 0

def word (r : Region) (pos : Nat) : UInt32 :=
  UInt32.ofNat ((r.byte pos).toNat + 256 * (r.byte (pos + 1)).toNat +
    65536 * (r.byte (pos + 2)).toNat + 16777216 * (r.byte (pos + 3)).toNat)

def setByte (r : Region) (pos : Nat) (b : UInt8) : Region :=
  if h : pos < r.bytes.size then ⟨r.bytes.set pos b h⟩ else r

def blit (r : Region) (pos : Nat) (src : ByteArray) : Region :=
  src.size.fold (fun i _ r => r.setByte (pos + i) ((⟨src⟩ : Region).byte i)) r

theorem byte_append (a b : ByteArray) (i : Nat) :
    (⟨a ++ b⟩ : Region).byte i =
      if i < a.size then (⟨a⟩ : Region).byte i else (⟨b⟩ : Region).byte (i - a.size) := by
  simp only [byte, ByteArray.size_append, ByteArray.getElem_eq_getElem_data, ByteArray.data_append,
    Array.getElem_append, ByteArray.size_data]
  by_cases ha : i < a.size
  · rw [dif_pos (by omega), dif_pos ha, if_pos ha, dif_pos ha]
  · rw [if_neg ha]
    by_cases hb : i < a.size + b.size
    · rw [dif_pos hb, dif_neg ha, dif_pos (by omega)]
    · rw [dif_neg hb, dif_neg (by omega)]

theorem byte_of_size_le {r : Region} {i : Nat} (h : r.size ≤ i) : r.byte i = 0 :=
  dif_neg (Nat.not_lt.2 h)

theorem byte_zeros (n i : Nat) : (⟨zeros n⟩ : Region).byte i = 0 := by
  fun_induction zeros n generalizing i with
  | case1 => rfl
  | case2 n hn half he ih => rw [byte_append, ih, ih, ite_self]
  | case3 n hn half he ih =>
    rw [byte_append, byte_append, ih, ih, ite_self]
    split
    · rfl
    · by_cases hi : i - (half ++ half).size = 0
      · rw [hi]
        rfl
      · exact byte_of_size_le (Nat.one_le_iff_ne_zero.2 hi)

theorem size_setByte (r : Region) (pos : Nat) (b : UInt8) : (r.setByte pos b).size = r.size := by
  simp only [setByte]
  split
  · exact Array.size_set _
  · rfl

theorem byte_setByte {r : Region} {pos : Nat} (b : UInt8) (i : Nat) (h : pos < r.size) :
    (r.setByte pos b).byte i = if i = pos then b else r.byte i := by
  have hs := size_setByte r pos b
  simp only [size] at h hs
  simp only [byte, hs]
  simp only [setByte, h, ByteArray.getElem_eq_getElem_data, ByteArray.set, dite_true,
    Array.getElem_set]
  by_cases hi : i = pos
  · subst hi
    rw [dif_pos h, if_pos rfl, if_pos rfl]
  · by_cases hr : i < r.bytes.size
    · rw [dif_pos hr, if_neg (Ne.symm hi), if_neg hi, dif_pos hr]
    · rw [dif_neg hr, if_neg hi, dif_neg hr]

theorem size_fold_setByte (r : Region) (pos n : Nat) (f : Nat → UInt8) :
    (n.fold (fun k _ r => r.setByte (pos + k) (f k)) r).size = r.size := by
  induction n with
  | zero => rfl
  | succ n ih => rw [Nat.fold_succ, size_setByte, ih]

theorem byte_fold_setByte {r : Region} {pos n : Nat} (f : Nat → UInt8) (i : Nat)
    (h : pos + n ≤ r.size) : (n.fold (fun k _ r => r.setByte (pos + k) (f k)) r).byte i =
      if pos ≤ i ∧ i < pos + n then f (i - pos) else r.byte i := by
  induction n with
  | zero => exact (if_neg (by omega)).symm
  | succ n ih =>
    rw [Nat.fold_succ, byte_setByte _ _ (by rw [size_fold_setByte]; omega), ih (by omega)]
    by_cases hi : i = pos + n
    · subst hi
      rw [if_pos rfl, if_pos (by omega), Nat.add_sub_cancel_left]
    · rw [if_neg hi]
      by_cases hin : pos ≤ i ∧ i < pos + n
      · rw [if_pos hin, if_pos (by omega)]
      · rw [if_neg hin, if_neg (by omega)]

theorem size_blit (r : Region) (pos : Nat) (src : ByteArray) : (r.blit pos src).size = r.size :=
  size_fold_setByte r pos src.size _

theorem byte_blit {r : Region} {pos : Nat} {src : ByteArray} (i : Nat)
    (h : pos + src.size ≤ r.size) : (r.blit pos src).byte i =
      if pos ≤ i ∧ i < pos + src.size then (⟨src⟩ : Region).byte (i - pos) else r.byte i :=
  byte_fold_setByte _ i h

theorem word_blit_frame {r : Region} {pos other : Nat} {src : ByteArray}
    (h : pos + src.size ≤ r.size) (hd : other + 4 ≤ pos ∨ pos + src.size ≤ other) :
    (r.blit pos src).word other = r.word other := by
  simp only [word, byte_blit _ h]
  rw [if_neg (by omega), if_neg (by omega), if_neg (by omega), if_neg (by omega)]

theorem word_blit_bytesOfWord {r : Region} {pos : Nat} {w : UInt32} (h : pos + 4 ≤ r.size) :
    (r.blit pos (bytesOfWord w)).word pos = w := by
  have hs : (bytesOfWord w).size = 4 := rfl
  have hw := w.toNat_lt
  have h0 : (⟨bytesOfWord w⟩ : Region).byte 0 = UInt8.ofNat (w.toNat % 256) := rfl
  have h1 : (⟨bytesOfWord w⟩ : Region).byte 1 = UInt8.ofNat (w.toNat / 256 % 256) := rfl
  have h2 : (⟨bytesOfWord w⟩ : Region).byte 2 = UInt8.ofNat (w.toNat / 65536 % 256) := rfl
  have h3 : (⟨bytesOfWord w⟩ : Region).byte 3 = UInt8.ofNat (w.toNat / 16777216) := rfl
  apply UInt32.toNat_inj.1
  rw [word, byte_blit _ (by omega), byte_blit _ (by omega), byte_blit _ (by omega),
    byte_blit _ (by omega), if_pos (by omega), if_pos (by omega), if_pos (by omega),
    if_pos (by omega), Nat.sub_self, Nat.add_sub_cancel_left, Nat.add_sub_cancel_left,
    Nat.add_sub_cancel_left, h0, h1, h2, h3, UInt32.toNat_ofNat']
  simp only [UInt8.toNat_ofNat']
  omega

def readWord (r : Region) (pos : Nat) : Except Trap UInt32 :=
  if pos + wordBytes ≤ r.size then .ok (r.word pos) else .error .outOfBounds

def readBytes (r : Region) (pos count : Nat) : Except Trap ByteArray :=
  if pos + count ≤ r.size then .ok (r.bytes.extract pos (pos + count)) else .error .outOfBounds

end Region

/-- Steps that change a region. A step that traps leaves the writes made before it. -/
abbrev RegionM := EStateM Trap Region

instance : MonadLift (Except Trap) RegionM where
  monadLift
    | .ok a => pure a
    | .error t => throw t

namespace Region

def writeBytes (pos : Nat) (src : ByteArray) : RegionM Unit := fun r =>
  if pos + src.size ≤ r.size then .ok () (r.blit pos src) else .error .outOfBounds r

def writeByte (pos : Nat) (b : UInt8) : RegionM Unit := writeBytes pos ⟨#[b]⟩

def writeWord (pos : Nat) (w : UInt32) : RegionM Unit := writeBytes pos (bytesOfWord w)

/-- Copies `count` bytes from `source` to `target`; all are read before any is written. -/
def move (source count target : Nat) : RegionM Unit := fun r =>
  match r.readBytes source count with
  | .ok src => writeBytes target src r
  | .error t => .error t r

end Region

end BoundaryTag
