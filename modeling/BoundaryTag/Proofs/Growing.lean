import BoundaryTag.Proofs.Granting
import BoundaryTag.Proofs.Merging

/-!
# Growing and creating

Growth appends one free block to the outline and merges it; it is refused, and changes nothing, exactly
when the arena has not that many bytes left. A new heap depicts one free block of a chunk.
-/

set_option autoImplicit false

namespace BoundaryTag

open HeapM

namespace Settings

structure Accepted (s : Settings) : Prop where
  chunk : 8 ≤ s.chunk ∧ s.chunk % 8 = 0
  room : 16 + s.chunk ≤ s.limit
  limit : s.limit ≤ maxBlock

def wholeChunk (s : Settings) : Nat := (s.chunk + 7) / 8 * 8

/-- Settings that can work: the sentinels and a chunk fit below the limit, and every block fits a tag. -/
structure Workable (s : Settings) : Prop where
  chunk : 1 ≤ s.chunk ∧ s.chunk ≤ maxBlock
  room : sentinelBytes + s.wholeChunk ≤ s.limit
  limit : s.limit ≤ maxBlock

def rounded (s : Settings) : Settings := { s with chunk := s.wholeChunk }

theorem validate_eq (s : Settings) : s.validate =
    if s.chunk = 0 then .error (.refused (.invalidSettings .zeroChunk))
    else if maxBlock < s.chunk then .error (.refused (.invalidSettings .chunkTooLarge))
    else if s.limit < sentinelBytes + s.wholeChunk then
      .error (.refused (.invalidSettings .noRoomForChunk))
    else if maxBlock < s.limit then .error (.refused (.invalidSettings .limitTooLarge))
    else .ok s.rounded := by
  by_cases hlarge : maxBlock < s.chunk
  · simp only [validate, if_pos hlarge]
    split <;> rfl
  · -- A chunk that fits a tag word is far enough below the end of the range to be rounded.
    have hround : roundUp s.chunk = .ok s.wholeChunk :=
      roundUp_of_lt (by simp only [maxBlock, addressLimit] at *; omega)
    simp only [validate, if_neg hlarge, hround]
    split
    · rfl
    · show (if s.limit < sentinelBytes + s.wholeChunk then _ else _) = _
      split
      · rfl
      · split <;> rfl

theorem validate_eq_ok_iff {s t : Settings} : s.validate = .ok t ↔ s.Workable ∧ t = s.rounded := by
  rw [validate_eq]
  constructor
  · intro h
    split at h
    · cases h
    · split at h
      · cases h
      · split at h
        · cases h
        · split at h
          · cases h
          · exact ⟨⟨⟨by omega, by omega⟩, by omega, by omega⟩, (Except.ok.inj h).symm⟩
  · rintro ⟨hw, rfl⟩
    have hchunk := hw.chunk
    rw [if_neg (by omega), if_neg (by omega), if_neg (Nat.not_lt.2 hw.room),
      if_neg (Nat.not_lt.2 hw.limit)]

theorem accepted_of_validate {s t : Settings} (h : s.validate = .ok t) :
    t.Accepted ∧ t.limit = s.limit ∧ t.checked = s.checked := by
  obtain ⟨hw, rfl⟩ := validate_eq_ok_iff.1 h
  have hchunk := hw.chunk
  have haccepted : s.rounded.Accepted :=
    ⟨by simp only [rounded, wholeChunk]; omega, hw.room, hw.limit⟩
  exact ⟨haccepted, rfl, rfl⟩

theorem validate_checked (s : Settings) (checked : Bool) :
    ({ s with checked } : Settings).validate = s.validate.map fun t => { t with checked } := by
  have hwhole : ({ s with checked } : Settings).wholeChunk = s.wholeChunk := rfl
  rw [validate_eq, validate_eq, hwhole]
  split
  · rfl
  · split
    · rfl
    · by_cases hroom : s.limit < sentinelBytes + s.wholeChunk
      · rw [if_pos hroom, if_pos hroom]
        rfl
      · rw [if_neg hroom, if_neg hroom]
        split <;> rfl

end Settings

theorem roundUp_of_aligned {n : Nat} (h : n % 8 = 0) (hle : n ≤ maxBlock) : roundUp n = .ok n := by
  simp only [maxBlock] at hle
  rw [roundUp_of_lt (by simp only [addressLimit]; omega)]
  congr 1
  omega

def Outline.bare : Outline := ⟨[], 16, 8⟩

theorem Outline.bare_valid : bare.Valid :=
  ⟨⟨rfl, fun b hb => absurd hb List.not_mem_nil, .inl (by decide)⟩, List.isChain_nil⟩

theorem Outline.bare_extend_blocks (bytes : Nat) :
    (bare.extend bytes).blocks = [⟨16, bytes, false⟩] := by
  simp [extend, append, merge, bare, joinFree, Block.attach]

namespace Heap

variable {h : Heap} {o : Outline}

def regrown (h : Heap) (r spare : Region) : Heap :=
  { h with arena := { h.arena with granted := r, spare := spare } }

def topped (h : Heap) (count : Nat) : Region × Region :=
  let reused := h.arena.spare.bytes.extract 0 count
  (⟨h.region.bytes ++ reused ++ zeros (count - reused.size)⟩,
    ⟨h.arena.spare.bytes.extract count h.arena.spare.size⟩)

theorem grow_granted {count : Nat} (hroom : count ≤ h.arena.capacity - h.size) (j : Array Event) :
    HeapM.grow count ⟨h, j⟩ =
      .ok h.size ⟨h.regrown (h.topped count).1 (h.topped count).2, j⟩ := by
  have hgrow : Arena.grow count h.arena = .ok h.size (h.arena.topped count) :=
    Arena.grow_granted hroom
  simp only [HeapM.grow, hgrow]
  rfl

theorem size_topped (h : Heap) (count : Nat) : (h.topped count).1.size = h.size + count :=
  Arena.size_topped count h.arena

theorem byte_topped (h : Heap) (count : Nat) {i : Nat} (hi : i < h.size) :
    (h.topped count).1.byte i = h.region.byte i := by
  have hin : i < h.arena.size := hi
  have hgranted : (h.topped count).1.byte i = h.arena.byte i :=
    Arena.granted_topped (Nat.lt_add_right count hin)
  rw [hgranted, Arena.byte, if_pos hin]
  rfl

theorem grow_run {count : Nat} (hroom : count ≤ h.arena.capacity - h.size) (j : Array Event) :
    ∃ r spare, HeapM.grow count ⟨h, j⟩ = .ok h.size ⟨h.regrown r spare, j⟩ ∧
      r.size = h.size + count ∧ ∀ i, i < h.size → r.byte i = h.region.byte i :=
  ⟨_, _, grow_granted hroom j, size_topped h count, fun _ hi => byte_topped h count hi⟩

theorem grow_refused {count : Nat} (hfull : h.arena.capacity - h.size < count) (j : Array Event) :
    HeapM.grow count ⟨h, j⟩ =
      .error (.refused (.outOfMemory count (h.arena.capacity - h.size))) ⟨h, j⟩ := by
  have hgrow : Arena.grow count h.arena =
      .error (.outOfMemory count (h.arena.capacity - h.size)) h.arena := Arena.grow_refused hfull
  simp only [HeapM.grow, hgrow]

theorem write_append {r : Region} {top bytes : Nat} (h16 : 16 ≤ top) (hsize : r.size = top + bytes)
    (hb : 8 ≤ bytes ∧ bytes % 8 = 0) (hmax : bytes ≤ maxBlock) :
    ∃ r', (do
        writeTags top ⟨bytes, false⟩
        Region.writeWord (← headerAt (top + bytes)) (← Tag.encode ⟨0, true⟩) : RegionM Unit) r =
          .ok () r' ∧ r.Within r' (top - 4) (top + bytes) ∧ r'.Tagged ⟨top, bytes, false⟩ ∧
      r'.word (top + bytes - 4) = Tag.word ⟨0, true⟩ := by
  -- The old epilogue becomes the header of the new block, and a new epilogue follows it.
  have hs : (bytesOfWord (Tag.word ⟨0, true⟩)).size = 4 := rfl
  have htags : writeTags top ⟨bytes, false⟩ r = .ok () (r.retag ⟨top, bytes, false⟩) :=
    Region.writeTags_eq (by omega) hb (by omega) hmax
  have hone := Region.within_retag (r := r) (b := ⟨top, bytes, false⟩) (by dsimp only; omega) hb.1
    (by simp only [Block.stop]; omega)
  have htagged := Region.tagged_retag (r := r) (b := ⟨top, bytes, false⟩) (by dsimp only; omega) hb
    (by simp only [Block.stop]; omega) hmax
  have hfit : top + bytes - 4 + (bytesOfWord (Tag.word ⟨0, true⟩)).size ≤
      (r.retag ⟨top, bytes, false⟩).size := by
    rw [hone.size, hs]
    omega
  have htwo := Region.within_blit hfit
  rw [hs] at htwo
  simp only [Block.stop] at hone
  have hhead : headerAt (top + bytes) = .ok (top + bytes - 4) :=
    minus_of_le (by simp only [wordBytes]; omega)
  have hword : Region.writeWord (top + bytes - 4) (Tag.word ⟨0, true⟩)
      (r.retag ⟨top, bytes, false⟩) = .ok () ((r.retag ⟨top, bytes, false⟩).blit (top + bytes - 4)
        (bytesOfWord (Tag.word ⟨0, true⟩))) := Region.writeWord_eq (hs ▸ hfit)
  refine ⟨_, ?_, (hone.widen (by omega) (by omega)).trans (htwo.widen (by omega) (by omega)), ?_, ?_⟩
  · rw [bind_ok htags, bind_ok (Region.lift_run hhead _),
      bind_ok (Region.lift_run Tag.encode_end _), hword]
  · apply htagged.congr (by dsimp only; omega) hb.1
    intro i _ hi
    simp only [Block.stop] at hi
    exact htwo.byte i (by omega)
  · exact Region.word_blit_bytesOfWord (hs ▸ hfit)

theorem append_depicts {bytes : Nat} {r r' : Region} (spare : Region) (hd : h.Depicts o) (hl : o.Laid)
    (hsize : r.size = h.size + bytes) (hbyte : ∀ i, i < h.size → r.byte i = h.region.byte i)
    (hw : r.Within r' (o.top - 4) (o.top + bytes)) (htag : r'.Tagged ⟨o.top, bytes, false⟩)
    (hend : r'.word (o.top + bytes - 4) = Tag.word ⟨0, true⟩) :
    ((h.regrown r spare).withRegion r').Depicts (o.append bytes) ∧
      h.Keeps ((h.regrown r spare).withRegion r') o.inUse := by
  have htop := hl.top_ge
  rw [hd.size] at hsize hbyte
  have hsame : ∀ i, i < o.top - 4 → r'.byte i = h.region.byte i := fun i hi =>
    (hw.byte i (by omega)).trans (hbyte i (by omega))
  have hread : Tag.ofWord (r'.word (o.top + bytes - 4)) = ⟨0, true⟩ := by
    rw [hend]
    exact Tag.ofWord_end
  have hshows : r'.Shows (o.append bytes) :=
    hd.region.append hl (hw.size.trans hsize) hsame htag hread
  have hspares : h.region.Spares r' o.inUse := by
    intro b hb i _ hi
    have hstop := (hl.bounds (Outline.mem_inUse.1 hb).1).2.1
    exact hsame i (by omega)
  have hsealed : h.region.Sealed → r'.Sealed := by
    intro hs
    have h4 : r'.word 4 = h.region.word 4 := Region.word_congr fun i _ _ => hsame i (by omega)
    have h8 : r'.word 8 = h.region.word 8 := Region.word_congr fun i _ _ => hsame i (by omega)
    exact ⟨by rw [h4, hs.header], by rw [h8, hs.footer], by rw [hw.size, hsize, hend]⟩
  exact ⟨⟨hshows, hd.cursor⟩, rfl, rfl, rfl, rfl, hspares, hsealed⟩

theorem extend_run {bytes : Nat} (hd : h.Depicts o) (hv : o.Valid)
    (hb : 8 ≤ bytes ∧ bytes % 8 = 0) (hroom : bytes ≤ h.arena.capacity - o.top)
    (hcap : h.arena.capacity ≤ maxBlock) (j : Array Event) :
    ∃ h' j', BoundaryTag.extend bytes ⟨h, j⟩ = .ok (o.crown bytes).bp ⟨h', j'⟩ ∧
      h'.Depicts (o.extend bytes) ∧ h.Keeps h' o.inUse ∧ h'.live = h.live := by
  have htop := hv.top_ge
  have hround : roundUp bytes = .ok bytes := roundUp_of_aligned hb.2 (by omega)
  rw [← hd.size] at hroom
  obtain ⟨r, spare, hgrow, hsize, hbyte⟩ := grow_run hroom j
  rw [hd.size] at hgrow hroom
  have hsize' : r.size = o.top + bytes := hd.size ▸ hsize
  obtain ⟨r', hwrite, hwithin, htag, hend⟩ := write_append htop hsize' hb (by omega)
  obtain ⟨hd', hk⟩ := append_depicts spare hd hv.toLaid hsize hbyte hwithin htag hend
  have hsplit : (o.append bytes).blocks = o.blocks ++ [⟨o.top, bytes, false⟩] := rfl
  obtain ⟨c, h', hmerge, ⟨hc, -, hstop⟩, hd'', hk', hlive⟩ := merge_run hd'
    (Outline.append_laid hv.toLaid hb) hsplit rfl hv.apart List.isChain_nil
    (by simp only [Outline.append]; omega) (j.push (.extended bytes o.top))
  have hcrown : c = o.crown bytes := Outline.eq_crown hv hb hc hstop
  rw [hcrown] at hmerge
  rw [Outline.append_inUse] at hk'
  refine ⟨h', j.push (.extended bytes o.top), ?_, hd'', hk.trans hk', hlive⟩
  rw [BoundaryTag.extend, bind_ok (lift_run hround _), bind_ok hgrow, bind_ok (record_run _ _ _),
    bind_ok (edit_run hwrite _), hmerge]

theorem extend_refused {bytes : Nat} (hb : bytes % 8 = 0) (hle : bytes ≤ maxBlock)
    (hfull : h.arena.capacity - h.size < bytes) (j : Array Event) :
    BoundaryTag.extend bytes ⟨h, j⟩ =
      .error (.refused (.outOfMemory bytes (h.arena.capacity - h.size))) ⟨h, j⟩ := by
  rw [BoundaryTag.extend, bind_ok (lift_run (roundUp_of_aligned hb hle) _),
    bind_error (grow_refused hfull j)]

theorem write_sentinels {r : Region} (hsize : r.size = 16) :
    ∃ r', (do
        Region.writeWord 0 0
        Region.writeWord (0 + 4) (← Tag.encode ⟨8, true⟩)
        Region.writeWord (0 + 8) (← Tag.encode ⟨8, true⟩)
        Region.writeWord (0 + 12) (← Tag.encode ⟨0, true⟩) : RegionM Unit) r = .ok () r' ∧
      r'.size = 16 ∧ r'.word 4 = Tag.word ⟨8, true⟩ ∧ r'.word 8 = Tag.word ⟨8, true⟩ ∧
      r'.word 12 = Tag.word ⟨0, true⟩ := by
  have hfour : ∀ w, (bytesOfWord w).size = 4 := fun _ => rfl
  obtain ⟨r0, hr0⟩ : ∃ r0, r0 = r.blit 0 (bytesOfWord 0) := ⟨_, rfl⟩
  obtain ⟨r1, hr1⟩ : ∃ r1, r1 = r0.blit 4 (bytesOfWord (Tag.word ⟨8, true⟩)) := ⟨_, rfl⟩
  obtain ⟨r2, hr2⟩ : ∃ r2, r2 = r1.blit 8 (bytesOfWord (Tag.word ⟨8, true⟩)) := ⟨_, rfl⟩
  obtain ⟨r3, hr3⟩ : ∃ r3, r3 = r2.blit 12 (bytesOfWord (Tag.word ⟨0, true⟩)) := ⟨_, rfl⟩
  have h0 : r0.size = 16 := by rw [hr0, Region.size_blit, hsize]
  have h1 : r1.size = 16 := by rw [hr1, Region.size_blit, h0]
  have h2 : r2.size = 16 := by rw [hr2, Region.size_blit, h1]
  have h3 : r3.size = 16 := by rw [hr3, Region.size_blit, h2]
  have hw0 : Region.writeWord 0 0 r = .ok () r0 := hr0 ▸ Region.writeWord_eq (by omega)
  have hw1 : Region.writeWord (0 + 4) (Tag.word ⟨8, true⟩) r0 = .ok () r1 :=
    hr1 ▸ Region.writeWord_eq (by omega)
  have hw2 : Region.writeWord (0 + 8) (Tag.word ⟨8, true⟩) r1 = .ok () r2 :=
    hr2 ▸ Region.writeWord_eq (by omega)
  have hw3 : Region.writeWord (0 + 12) (Tag.word ⟨0, true⟩) r2 = .ok () r3 :=
    hr3 ▸ Region.writeWord_eq (by omega)
  refine ⟨r3, ?_, h3, ?_, ?_, ?_⟩
  · rw [bind_ok hw0, bind_ok (Region.lift_run Tag.encode_guard _), bind_ok hw1,
      bind_ok (Region.lift_run Tag.encode_guard _), bind_ok hw2,
      bind_ok (Region.lift_run Tag.encode_end _), hw3]
  · rw [hr3, Region.word_blit_frame (by rw [hfour]; omega) (by omega), hr2,
      Region.word_blit_frame (by rw [hfour]; omega) (by omega), hr1,
      Region.word_blit_bytesOfWord (by omega)]
  · rw [hr3, Region.word_blit_frame (by rw [hfour]; omega) (by omega), hr2,
      Region.word_blit_bytesOfWord (by omega)]
  · rw [hr3, Region.word_blit_bytesOfWord (by omega)]

theorem layOut_run (hempty : h.size = 0) (hcap : 16 ≤ h.arena.capacity) (hcursor : h.cursor = 8)
    (j : Array Event) :
    ∃ h', layOut ⟨h, j⟩ = .ok () ⟨h', j⟩ ∧ h'.Depicts Outline.bare ∧ h.Keeps h' [] ∧ h'.region.Sealed ∧
      h'.live = h.live := by
  have hroom : 16 ≤ h.arena.capacity - h.size := by omega
  obtain ⟨r, spare, hgrow, hsize, -⟩ := grow_run hroom j
  rw [hempty] at hgrow hsize
  obtain ⟨r', hwrite, hsize', h4, h8, h12⟩ := write_sentinels hsize
  have hsealed : r'.Sealed := ⟨h4, h8, by rw [hsize', h12]⟩
  have htagged : ∀ b ∈ Outline.bare.guarded, r'.Tagged b := by
    intro b hb
    have hb : b = Outline.prologue := List.mem_singleton.1 hb
    subst hb
    have hhead : Tag.ofWord (r'.word 4) = Outline.prologue.tag := by
      rw [h4, Tag.ofWord_guard]
      rfl
    have hfoot : r'.word 8 = r'.word 4 := by rw [h4, h8]
    exact ⟨hhead, hfoot⟩
  have htop : Tag.ofWord (r'.word (Outline.bare.top - 4)) = ⟨0, true⟩ := by
    show Tag.ofWord (r'.word 12) = _
    rw [h12, Tag.ofWord_end]
  refine ⟨(h.regrown r spare).withRegion r', ?_, ⟨⟨hsize', htagged, htop⟩, hcursor⟩, ?_, hsealed, rfl⟩
  · rw [layOut, bind_ok hgrow, edit_run hwrite]
  · exact ⟨rfl, rfl, rfl, rfl, fun b hb => absurd hb List.not_mem_nil, fun _ => hsealed⟩

def furnish (t : Settings) : HeapM Unit := do
  record (.reserved t.limit)
  layOut
  discard (BoundaryTag.extend t.chunk)
  record (.initialised t.chunk t.limit t.checked)

def reserved (t : Settings) (base : Nat) : Heap :=
  ⟨⟨base, ⟨ByteArray.empty⟩, ⟨ByteArray.empty⟩, t.limit⟩, t, prologue,
    if t.checked then some LiveBlocks.empty else none⟩

theorem create_eq {s t : Settings} (base : Nat) (hs : s.validate = .ok t) :
    Heap.create s (.ok base) =
      match furnish t ⟨reserved t base, #[]⟩ with
      | .ok _ n => .ok n
      | .error e _ => .error e := by
  rw [Heap.create, hs]
  rfl

theorem create_ok_iff {s t : Settings} {n : Session} (base : Nat) (hs : s.validate = .ok t) :
    Heap.create s (.ok base) = .ok n ↔ furnish t ⟨reserved t base, #[]⟩ = .ok () n := by
  rw [create_eq base hs]
  cases furnish t ⟨reserved t base, #[]⟩ with
  | ok _ m => simp
  | error e m => simp

theorem furnish_run {t : Settings} (ht : t.Accepted) (hempty : h.size = 0)
    (hcapacity : h.arena.capacity = t.limit) (hcursor : h.cursor = 8) (j : Array Event) :
    ∃ h' j', furnish t ⟨h, j⟩ = .ok () ⟨h', j'⟩ ∧ h'.Depicts (Outline.bare.extend t.chunk) ∧
      h.Keeps h' [] ∧ h'.region.Sealed ∧ h'.live = h.live := by
  have hroom := ht.room
  have hlimit := ht.limit
  have hcap : 16 ≤ h.arena.capacity := by omega
  obtain ⟨h₁, hlay, hd, hk, hsealed, hlive⟩ :=
    layOut_run hempty hcap hcursor (j.push (.reserved t.limit))
  have hcapacity' : h₁.arena.capacity = t.limit := hk.capacity.trans hcapacity
  have hfit : t.chunk ≤ h₁.arena.capacity - Outline.bare.top := by
    rw [hcapacity']
    simp only [Outline.bare]
    omega
  obtain ⟨h', j', hextend, hd', hk', hlive'⟩ := extend_run hd Outline.bare_valid ht.chunk hfit
    (hcapacity' ▸ hlimit) (j.push (.reserved t.limit))
  have hnone : ∀ b ∈ ([] : List Block), b ∈ Outline.bare.inUse := fun b hb =>
    absurd hb List.not_mem_nil
  refine ⟨h', j'.push (.initialised t.chunk t.limit t.checked), ?_, hd', hk.trans (hk'.mono hnone),
    hk'.sealed hsealed, hlive'.trans hlive⟩
  rw [furnish, bind_ok (record_run _ _ _), bind_ok hlay, bind_ok (discard_ok hextend), record_run]

/-- Accepted settings always yield a heap: one free block of a chunk between the sentinels. -/
theorem create_run {s t : Settings} (base : Nat) (hs : s.validate = .ok t) :
    ∃ n, Heap.create s (.ok base) = .ok n ∧ n.heap.Depicts (Outline.bare.extend t.chunk) ∧
      n.heap.region.Sealed ∧ n.heap.settings = t ∧ n.heap.arena.base = base ∧
      n.heap.arena.capacity = t.limit ∧
      n.heap.live = if t.checked then some LiveBlocks.empty else none := by
  have ht := (Settings.accepted_of_validate hs).1
  obtain ⟨h', j', hrun, hd, hk, hsealed, hlive⟩ :=
    furnish_run (h := reserved t base) ht rfl rfl rfl #[]
  exact ⟨⟨h', j'⟩, (create_ok_iff base hs).2 hrun, hd, hsealed, hk.settings, hk.base, hk.capacity,
    hlive⟩

end Heap

end BoundaryTag
