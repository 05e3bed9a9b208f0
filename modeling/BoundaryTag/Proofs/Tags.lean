import BoundaryTag.Proofs.Running
import BoundaryTag.Proofs.Tiling

/-!
# Tags in a region

`Region.Tagged` says that a block's header and footer hold one word and that the word reads as the
block's tag; the unused bits of the word may be set. A change is described by the range of bytes it
stays within, and a block outside that range keeps its tags. What is written into both words is read
back from either of them.
-/

set_option autoImplicit false

namespace BoundaryTag

def Tag.word (t : Tag) : UInt32 := UInt32.ofNat (t.size + t.allocated.toNat)

theorem Tag.encode_eq {t : Tag} (h8 : t.size % 8 = 0) (hle : t.size ≤ maxBlock) :
    t.encode = .ok t.word := if_pos ⟨h8, hle⟩

theorem Tag.ofWord_word {t : Tag} (h8 : t.size % 8 = 0) (hle : t.size ≤ maxBlock) :
    Tag.ofWord t.word = t := Tag.ofWord_of_encode (Tag.encode_eq h8 hle)

theorem Tag.encode_ofWord {w : UInt32} (h : w &&& 6 = 0) : (ofWord w).encode = .ok w := by
  have hlow : w.toNat % 8 < 2 := by
    have hzero : w.toNat % 8 &&& 6 = 0 := by
      have hand : w.toNat &&& 6 = 0 := congrArg UInt32.toNat h
      rw [← Nat.and_two_pow_sub_one_eq_mod w.toNat 3, Nat.and_assoc]
      exact hand
    have hsmall : ∀ k, k < 8 → k &&& 6 = 0 → k < 2 := by decide
    exact hsmall _ (Nat.mod_lt _ (by decide)) hzero
  have hbit : (w.toNat % 2 == 1).toNat = w.toNat % 2 := by
    rcases Nat.mod_two_eq_zero_or_one w.toNat with h0 | h1
    · rw [h0]
      rfl
    · rw [h1]
      rfl
  rw [Tag.encode_eq (size_ofWord_mod w) (size_ofWord_le w), Tag.word]
  congr 1
  apply UInt32.toNat_inj.1
  have hlt := w.toNat_lt
  simp only [ofWord, unitBytes, hbit]
  rw [UInt32.toNat_ofNat_of_lt' (by simp only [UInt32.size]; omega)]
  omega

/-! The tags of the two sentinels. -/

theorem Tag.encode_guard : Tag.encode ⟨8, true⟩ = .ok (Tag.word ⟨8, true⟩) :=
  encode_eq (by decide) (by decide)

theorem Tag.encode_end : Tag.encode ⟨0, true⟩ = .ok (Tag.word ⟨0, true⟩) :=
  encode_eq (by decide) (by decide)

theorem Tag.ofWord_guard : Tag.ofWord (Tag.word ⟨8, true⟩) = ⟨8, true⟩ :=
  ofWord_word (by decide) (by decide)

theorem Tag.ofWord_end : Tag.ofWord (Tag.word ⟨0, true⟩) = ⟨0, true⟩ :=
  ofWord_word (by decide) (by decide)

def Block.tag (b : Block) : Tag := ⟨b.size, b.allocated⟩

namespace Region

/-- `r'` differs from `r` at most in the bytes from `low` up to `high`. -/
structure Within (r r' : Region) (low high : Nat) : Prop where
  size : r'.size = r.size
  byte : ∀ i, i < low ∨ high ≤ i → r'.byte i = r.byte i

theorem Within.refl (r : Region) (low high : Nat) : r.Within r low high := ⟨rfl, fun _ _ => rfl⟩

theorem Within.trans {r r' r'' : Region} {low high : Nat} (h : r.Within r' low high)
    (h' : r'.Within r'' low high) : r.Within r'' low high :=
  ⟨h'.size.trans h.size, fun i hi => (h'.byte i hi).trans (h.byte i hi)⟩

theorem Within.widen {r r' : Region} {low high low' high' : Nat} (h : r.Within r' low high)
    (hlow : low' ≤ low) (hhigh : high ≤ high') : r.Within r' low' high' :=
  ⟨h.size, fun i hi => h.byte i (by omega)⟩

theorem within_blit {r : Region} {pos : Nat} {src : ByteArray} (h : pos + src.size ≤ r.size) :
    r.Within (r.blit pos src) pos (pos + src.size) :=
  ⟨size_blit r pos src, fun i hi => by rw [byte_blit i h, if_neg (by omega)]⟩

theorem word_congr {r r' : Region} {pos : Nat}
    (h : ∀ i, pos ≤ i → i < pos + 4 → r'.byte i = r.byte i) : r'.word pos = r.word pos := by
  simp only [word]
  rw [h pos (by omega) (by omega), h (pos + 1) (by omega) (by omega),
    h (pos + 2) (by omega) (by omega), h (pos + 3) (by omega) (by omega)]

theorem byte_cut (r : Region) (start stop i : Nat) :
    (⟨r.bytes.extract start stop⟩ : Region).byte i =
      if start + i < stop then r.byte (start + i) else 0 := by
  have hcut : (r.bytes.extract start stop).size = min stop r.bytes.size - start :=
    ByteArray.size_extract
  by_cases hin : i < (r.bytes.extract start stop).size
  · rw [if_pos (by omega), byte, dif_pos hin, byte, dif_pos (show start + i < r.bytes.size by omega)]
    exact ByteArray.getElem_extract hin
  · rw [byte, dif_neg hin]
    split
    · exact (byte_of_size_le (by simp only [size]; omega)).symm
    · rfl

theorem byte_extract {r : Region} {start stop i : Nat} (hi : start + i < stop) :
    (⟨r.bytes.extract start stop⟩ : Region).byte i = r.byte (start + i) := by
  rw [byte_cut, if_pos hi]

theorem bytes_ext {r r' : Region} (hs : r'.size = r.size)
    (hb : ∀ i, i < r.size → r'.byte i = r.byte i) : r' = r := by
  simp only [size] at hs hb
  obtain ⟨bytes⟩ := r
  obtain ⟨bytes'⟩ := r'
  have heq : bytes' = bytes := by
    apply ByteArray.ext_getElem hs
    intro i hi' hi
    have := hb i hi
    rwa [byte, dif_pos hi', byte, dif_pos hi] at this
  rw [heq]

theorem size_extract {r : Region} {start stop : Nat} (hstop : stop ≤ r.size) :
    (⟨r.bytes.extract start stop⟩ : Region).size = stop - start := by
  simp only [size] at *
  rw [ByteArray.size_extract]
  omega

theorem extract_congr {r r' : Region} {start stop : Nat} (hstop : stop ≤ r.size)
    (hstop' : stop ≤ r'.size) (hb : ∀ i, start ≤ i → i < stop → r'.byte i = r.byte i) :
    r'.bytes.extract start stop = r.bytes.extract start stop := by
  have heq : (⟨r'.bytes.extract start stop⟩ : Region) = ⟨r.bytes.extract start stop⟩ := by
    apply bytes_ext
    · rw [size_extract hstop', size_extract hstop]
    · intro i hi
      rw [size_extract hstop] at hi
      rw [byte_extract (by omega), byte_extract (by omega), hb _ (by omega) (by omega)]
  exact congrArg bytes heq

theorem extract_blit {r : Region} {low high start : Nat} {data : ByteArray} (hhigh : high ≤ r.size)
    (hfit : low + start + data.size ≤ high) :
    (r.blit (low + start) data).bytes.extract low high =
      ((⟨r.bytes.extract low high⟩ : Region).blit start data).bytes := by
  have hsize : (⟨r.bytes.extract low high⟩ : Region).size = high - low := size_extract hhigh
  have hhigh' : high ≤ (r.blit (low + start) data).size := by rw [size_blit]; exact hhigh
  have heq : (⟨(r.blit (low + start) data).bytes.extract low high⟩ : Region) =
      (⟨r.bytes.extract low high⟩ : Region).blit start data := by
    apply bytes_ext
    · rw [size_extract hhigh', size_blit, hsize]
    · intro i hi
      rw [size_blit, hsize] at hi
      rw [byte_extract (by omega), byte_blit _ (by omega), byte_blit _ (by rw [hsize]; omega),
        byte_extract (by omega)]
      by_cases hin : start ≤ i ∧ i < start + data.size
      · rw [if_pos (by omega), if_pos hin]
        congr 1
        omega
      · rw [if_neg (by omega), if_neg hin]
  exact congrArg bytes heq

variable {r : Region} {bp : Nat}

theorem header_eq (h4 : 4 ≤ bp) (hle : bp ≤ r.size) : r.header bp = .ok (r.word (bp - 4)) := by
  simp only [header, headerAt, minus_of_le h4, bind, Except.bind, readWord, wordBytes]
  rw [if_pos (by omega)]

theorem tagAt_eq (h4 : 4 ≤ bp) (hle : bp ≤ r.size) :
    r.tagAt bp = .ok (Tag.ofWord (r.word (bp - 4))) := by
  rw [tagAt, header_eq h4 hle]
  rfl

theorem reach_le {tag : Tag} (h : r.tagAt bp = .ok tag) : bp + tag.size ≤ r.size + maxBlock := by
  obtain ⟨h4, hle⟩ := bounds_of_tagAt h
  rw [tagAt_eq h4 hle] at h
  have hsize : tag.size ≤ maxBlock := Except.ok.inj h ▸ Tag.size_ofWord_le _
  omega

theorem tagBefore_eq (h8 : 8 ≤ bp) (hle : bp ≤ r.size + 4) :
    r.tagBefore bp = .ok (Tag.ofWord (r.word (bp - 8))) := by
  simp only [tagBefore, minus_of_le h8, bind, Except.bind, readWord, wordBytes]
  rw [if_pos (by omega)]
  rfl

/-- Header and footer hold one word, which reads as the block's tag. -/
structure Tagged (r : Region) (b : Block) : Prop where
  header : Tag.ofWord (r.word (b.bp - 4)) = b.tag
  footer : r.word (b.stop - 8) = r.word (b.bp - 4)

variable {b : Block}

theorem Tagged.tagAt (h : r.Tagged b) (h4 : 4 ≤ b.bp) (hle : b.bp ≤ r.size) :
    r.tagAt b.bp = .ok b.tag := by
  rw [tagAt_eq h4 hle, h.header]

theorem Tagged.next (h : r.Tagged b) (h4 : 4 ≤ b.bp) (hle : b.bp ≤ r.size) :
    r.next b.bp = .ok b.stop := by
  simp only [Region.next, h.tagAt h4 hle, bind, Except.bind, pure, Except.pure, Block.tag,
    Block.stop]

theorem Tagged.tagBefore (h : r.Tagged b) (h8 : 8 ≤ b.stop) (hle : b.stop ≤ r.size + 4) :
    r.tagBefore b.stop = .ok b.tag := by
  rw [tagBefore_eq h8 hle, h.footer, h.header]

theorem Tagged.readFooter (h : r.Tagged b) (h4 : 4 ≤ b.bp) (h8 : 8 ≤ b.size)
    (hle : b.stop ≤ r.size + 4) : r.footer b.bp = .ok (r.word (b.bp - 4)) := by
  simp only [Block.stop] at hle
  have hminus : minus (b.bp + b.tag.size) unitBytes = .ok (b.stop - 8) :=
    minus_of_le (by simp only [Block.tag, unitBytes]; omega)
  simp only [Region.footer, footerAt, h.tagAt h4 (by omega), bind, Except.bind, hminus]
  rw [← h.footer]
  exact if_pos (by simp only [Block.stop, wordBytes]; omega)

theorem Tagged.previous (h : r.Tagged b) (h8 : 8 ≤ b.stop) (hle : b.stop ≤ r.size + 4) :
    r.previous b.stop = .ok b.bp := by
  have hback : minus b.stop b.tag.size = .ok b.bp := by
    rw [minus_of_le (by simp only [Block.stop, Block.tag]; omega)]
    simp only [Block.stop, Block.tag, Nat.add_sub_cancel]
  simp only [Region.previous, h.tagBefore h8 hle, bind, Except.bind, hback]

theorem Tagged.congr {r' : Region} (h : r.Tagged b) (h4 : 4 ≤ b.bp) (h8 : 8 ≤ b.size)
    (hbyte : ∀ i, b.bp - 4 ≤ i → i < b.stop - 4 → r'.byte i = r.byte i) : r'.Tagged b := by
  simp only [Block.stop] at hbyte
  have hhead : r'.word (b.bp - 4) = r.word (b.bp - 4) :=
    word_congr fun i _ _ => hbyte i (by omega) (by omega)
  have hfoot : r'.word (b.stop - 8) = r.word (b.stop - 8) := by
    simp only [Block.stop]
    exact word_congr fun i _ _ => hbyte i (by omega) (by omega)
  exact ⟨by rw [hhead, h.header], by rw [hfoot, hhead, h.footer]⟩

theorem Tagged.payload {r' : Region} (h : r.Tagged b) (h4 : 4 ≤ b.bp)
    (hw : r.Within r' b.bp (b.stop - 8)) : r'.Tagged b := by
  have hw := hw.byte
  simp only [Block.stop] at hw
  have hhead : r'.word (b.bp - 4) = r.word (b.bp - 4) :=
    word_congr fun i _ _ => hw i (by omega)
  have hfoot : r'.word (b.stop - 8) = r.word (b.stop - 8) := by
    simp only [Block.stop]
    exact word_congr fun i _ _ => hw i (by omega)
  exact ⟨by rw [hhead, h.header], by rw [hfoot, hhead, h.footer]⟩

def retag (r : Region) (b : Block) : Region :=
  (r.blit (b.bp - 4) (bytesOfWord b.tag.word)).blit (b.stop - 8) (bytesOfWord b.tag.word)

theorem size_retag (r : Region) (b : Block) : (r.retag b).size = r.size := by
  rw [retag, size_blit, size_blit]

theorem byte_retag {i : Nat} (h4 : 4 ≤ b.bp) (h8 : 8 ≤ b.size) (hle : b.stop ≤ r.size + 4)
    (hhead : i < b.bp - 4 ∨ b.bp ≤ i) (hfoot : i < b.stop - 8 ∨ b.stop - 4 ≤ i) :
    (r.retag b).byte i = r.byte i := by
  have hs : (bytesOfWord b.tag.word).size = 4 := rfl
  have hsize : (r.blit (b.bp - 4) (bytesOfWord b.tag.word)).size = r.size := size_blit ..
  simp only [Block.stop] at hle hfoot
  rw [retag, byte_blit _ (by rw [hsize]; simp only [Block.stop]; omega),
    if_neg (by simp only [Block.stop]; omega), byte_blit _ (by omega), if_neg (by omega)]

theorem within_retag (h4 : 4 ≤ b.bp) (h8 : 8 ≤ b.size) (hle : b.stop ≤ r.size + 4) :
    r.Within (r.retag b) (b.bp - 4) (b.stop - 4) := by
  refine ⟨size_retag r b, fun i hi => byte_retag h4 h8 hle ?_ ?_⟩
  · simp only [Block.stop] at hi
    omega
  · simp only [Block.stop] at hi ⊢
    omega

theorem words_retag (h4 : 4 ≤ b.bp) (h8 : 8 ≤ b.size) (hle : b.stop ≤ r.size + 4) :
    (r.retag b).word (b.bp - 4) = b.tag.word ∧ (r.retag b).word (b.stop - 8) = b.tag.word := by
  have hs : (bytesOfWord b.tag.word).size = 4 := rfl
  have hsize : (r.blit (b.bp - 4) (bytesOfWord b.tag.word)).size = r.size := size_blit ..
  simp only [Block.stop] at hle
  constructor
  · -- The words may stand side by side, but the footer never reaches into the header.
    rw [retag, word_blit_frame (by rw [hsize]; simp only [Block.stop]; omega)
      (by simp only [Block.stop]; omega), word_blit_bytesOfWord (by omega)]
  · exact word_blit_bytesOfWord (by rw [hsize]; simp only [Block.stop]; omega)

theorem tagged_retag (h4 : 4 ≤ b.bp) (h8 : 8 ≤ b.size ∧ b.size % 8 = 0)
    (hle : b.stop ≤ r.size + 4) (hmax : b.size ≤ maxBlock) : (r.retag b).Tagged b := by
  obtain ⟨hhead, hfoot⟩ := words_retag h4 h8.1 hle
  exact ⟨by rw [hhead, Tag.ofWord_word h8.2 hmax], by rw [hhead, hfoot]⟩

theorem writeWord_eq {pos : Nat} {w : UInt32} (h : pos + 4 ≤ r.size) :
    writeWord pos w r = .ok () (r.blit pos (bytesOfWord w)) := if_pos h

theorem writeTags_eq {size : Nat} {allocated : Bool} (h4 : 4 ≤ bp) (h8 : 8 ≤ size ∧ size % 8 = 0)
    (hle : bp + size ≤ r.size + 4) (hmax : size ≤ maxBlock) :
    writeTags bp ⟨size, allocated⟩ r = .ok () (r.retag ⟨bp, size, allocated⟩) := by
  have hhead : headerAt bp = .ok (bp - 4) := minus_of_le h4
  have henc : Tag.encode ⟨size, allocated⟩ = .ok (Tag.word ⟨size, allocated⟩) :=
    Tag.encode_eq h8.2 hmax
  have hfoot : minus (bp + size) unitBytes = .ok (bp + size - 8) :=
    minus_of_le (by simp only [unitBytes]; omega)
  have hsize : (r.blit (bp - 4) (bytesOfWord (Tag.word ⟨size, allocated⟩))).size = r.size :=
    size_blit ..
  rw [writeTags, hhead, henc, hfoot]
  show (writeWord (bp - 4) (Tag.word ⟨size, allocated⟩) >>= fun _ =>
    writeWord (bp + size - 8) (Tag.word ⟨size, allocated⟩)) r = _
  rw [bind_ok (writeWord_eq (by omega)), writeWord_eq (by omega)]
  rfl

theorem footerAt_written {tag : Tag} {w : UInt32} (h4 : 4 ≤ bp) (hin : bp ≤ r.size)
    (hw : tag.encode = .ok w) :
    (r.blit (bp - 4) (bytesOfWord w)).footerAt bp = minus (bp + tag.size) unitBytes := by
  have hsize : (r.blit (bp - 4) (bytesOfWord w)).size = r.size := size_blit ..
  have hword : (r.blit (bp - 4) (bytesOfWord w)).word (bp - 4) = w :=
    word_blit_bytesOfWord (by omega)
  have htag : (r.blit (bp - 4) (bytesOfWord w)).tagAt bp = .ok tag := by
    rw [tagAt_eq h4 (by omega), hword, Tag.ofWord_of_encode hw]
  rw [footerAt, htag]
  rfl

/-- Writes the header, and the footer where the header just written puts it. -/
def inscribe (bp : Nat) (tag : Tag) : RegionM Unit := do
  let header ← headerAt bp
  let word ← tag.encode
  writeWord header word
  writeWord (← (← get).footerAt bp) word

theorem writeTags_eq_inscribe (bp : Nat) (tag : Tag) : writeTags bp tag = inscribe bp tag := by
  funext r
  rw [writeTags, inscribe]
  by_cases h4 : 4 ≤ bp
  · have hhead : headerAt bp = .ok (bp - 4) := minus_of_le h4
    rw [hhead]
    cases hw : tag.encode with
    | error t => rfl
    | ok w =>
      by_cases hin : bp ≤ r.size
      · have hwrite : writeWord (bp - 4) w r = .ok () (r.blit (bp - 4) (bytesOfWord w)) :=
          writeWord_eq (by omega)
        show (writeWord (bp - 4) w >>= fun _ => _) r = (writeWord (bp - 4) w >>= fun _ => _) r
        rw [bind_ok hwrite, bind_ok hwrite, ← footerAt_written h4 hin hw]
        rfl
      · have hwrite : writeWord (bp - 4) w r = .error .outOfBounds r := by
          have hs : (bytesOfWord w).size = 4 := rfl
          exact if_neg (by rw [hs]; omega)
        show (writeWord (bp - 4) w >>= fun _ => _) r = (writeWord (bp - 4) w >>= fun _ => _) r
        rw [bind_error hwrite, bind_error hwrite]
  · have hhead : headerAt bp = .error .overflow := if_neg h4
    rw [hhead]
    rfl

/-- `r'` is `r` with one tag in the header and the footer of the block at `bp`: all readers find that tag,
the block and the place behind it lead to each other, and no byte outside the two words has changed. -/
structure Inscribed (r r' : Region) (bp size : Nat) (allocated : Bool) : Prop where
  words : ∃ w, Tag.encode ⟨size, allocated⟩ = .ok w ∧ r'.header bp = .ok w ∧ r'.footer bp = .ok w
  tag : r'.tagAt bp = .ok ⟨size, allocated⟩
  next : r'.next bp = .ok (bp + size)
  previous : r'.previous (bp + size) = .ok bp
  extent : r'.size = r.size
  others : ∀ i, i < bp - 4 ∨ bp ≤ i → i < bp + size - 8 ∨ bp + size - 4 ≤ i → r'.byte i = r.byte i

theorem inscribed_retag (h4 : 4 ≤ b.bp) (h8 : 8 ≤ b.size ∧ b.size % 8 = 0)
    (hle : b.stop ≤ r.size + 4) (hmax : b.size ≤ maxBlock) :
    r.Inscribed (r.retag b) b.bp b.size b.allocated := by
  have hsize := size_retag r b
  have htagged := tagged_retag h4 h8 hle hmax
  obtain ⟨hhead, -⟩ := words_retag h4 h8.1 hle
  have hbound := hle
  simp only [Block.stop] at hbound
  have hin : b.bp ≤ (r.retag b).size := by omega
  have hstop : b.stop ≤ (r.retag b).size + 4 := by rw [hsize]; exact hle
  constructor
  case words =>
    refine ⟨b.tag.word, Tag.encode_eq h8.2 hmax, ?_, ?_⟩
    · rw [header_eq h4 hin, hhead]
    · rw [htagged.readFooter h4 h8.1 hstop, hhead]
  case tag => exact htagged.tagAt h4 hin
  case next => exact htagged.next h4 hin
  case previous => exact htagged.previous (by simp only [Block.stop]; omega) hstop
  case extent => exact hsize
  case others => exact fun i hi hi' => byte_retag h4 h8.1 hle hi hi'

/-- A tag can be written wherever both its words lie in the region, be they side by side, and is read
back from either of them; the footer is where the header just written puts it. And a word that uses no
other bits than tags do is read and written back. -/
theorem tags_read_back :
    (∀ (r : Region) (bp size : Nat) (allocated : Bool), 4 ≤ bp → 0 < size → size % 8 = 0 →
      size ≤ maxBlock → bp + size - 4 ≤ r.size →
        ∃ r', writeTags bp ⟨size, allocated⟩ r = .ok () r' ∧ inscribe bp ⟨size, allocated⟩ r = .ok () r' ∧
          r.Inscribed r' bp size allocated) ∧
    ∀ w : UInt32, w &&& 6 = 0 → (Tag.ofWord w).encode = .ok w := by
  constructor
  · intro r bp size allocated h4 hpos hmod hmax hle
    have h8 : 8 ≤ size ∧ size % 8 = 0 := ⟨by omega, hmod⟩
    have hstop : bp + size ≤ r.size + 4 := by omega
    have hwritten : writeTags bp ⟨size, allocated⟩ r = .ok () (r.retag ⟨bp, size, allocated⟩) :=
      writeTags_eq h4 h8 hstop hmax
    have hsteps := writeTags_eq_inscribe bp ⟨size, allocated⟩ ▸ hwritten
    exact ⟨_, hwritten, hsteps, inscribed_retag (b := ⟨bp, size, allocated⟩) h4 h8 hstop hmax⟩
  · intro w hw
    exact Tag.encode_ofWord hw

theorem adjacent_tags_read_back :
    (∃ r', writeTags 4 ⟨8, true⟩ ⟨⟨#[1, 2, 3, 4, 5, 6, 7, 8]⟩⟩ = .ok () r' ∧
      inscribe 4 ⟨8, true⟩ ⟨⟨#[1, 2, 3, 4, 5, 6, 7, 8]⟩⟩ = .ok () r' ∧
      Inscribed ⟨⟨#[1, 2, 3, 4, 5, 6, 7, 8]⟩⟩ r' 4 8 true) ∧
    (Tag.ofWord 4294967289).encode = .ok 4294967289 := by
  -- The smallest block at the lowest place, whose words leave nothing between them and reach the
  -- end of the region, and the largest word of a tag.
  have hsize : (⟨⟨#[1, 2, 3, 4, 5, 6, 7, 8]⟩⟩ : Region).size = 8 := rfl
  obtain ⟨hwritten, hword⟩ := tags_read_back
  exact ⟨hwritten _ 4 8 true (by decide) (by decide) (by decide) (by decide) (by rw [hsize]),
    hword 4294967289 (by decide)⟩

end Region

end BoundaryTag
