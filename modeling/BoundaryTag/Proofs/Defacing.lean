import BoundaryTag.Proofs.Checking

/-!
# Damage to one side of the tags

Every tag stands twice, in the header of its block and in the footer. When words of one side alone are
overwritten the checker finds a fault, whatever tags the payloads may imitate: the footers determine the
blocks from the top downwards and the headers from the bottom upwards, so a heap that is accepted has
the old blocks, and both tags of each are the old ones.
-/

set_option autoImplicit false

namespace BoundaryTag

theorem Block.eq_of_tag {b c : Block} (hbp : b.bp = c.bp) (htag : b.tag = c.tag) : b = c := by
  obtain ⟨bp, size, allocated⟩ := b
  obtain ⟨bp', size', allocated'⟩ := c
  obtain ⟨rfl, rfl⟩ := Tag.mk.inj htag
  obtain rfl : bp = bp' := hbp
  rfl

theorem Abut.ne_nil {bs : List Block} {start stop : Nat} (h : Abut start bs stop)
    (hlt : start < stop) : bs ≠ [] := by
  rintro rfl
  exact absurd h (Nat.ne_of_lt hlt)

theorem Abut.eq_of_headers (read : Nat → Tag) {bs cs : List Block} {start stop : Nat}
    (hb : Abut start bs stop) (hc : Abut start cs stop) (hbs : Sized bs) (hcs : Sized cs)
    (hbread : ∀ b ∈ bs, read b.bp = b.tag) (hcread : ∀ c ∈ cs, read c.bp = c.tag) : bs = cs := by
  induction bs generalizing start cs with
  | nil =>
    obtain rfl : start = stop := hb
    cases cs with
    | nil => rfl
    | cons c cs =>
      have hsize := (hcs c (by simp)).1
      have hbp := hc.1
      have hstop := hc.2.le
      simp only [Block.stop] at hstop
      omega
  | cons b bs ih =>
    have hsize := (hbs b (by simp)).1
    have hstop := hb.2.le
    have hbp := hb.1
    simp only [Block.stop] at hstop
    cases cs with
    | nil => exact absurd rfl (hc.ne_nil (by omega))
    | cons c cs =>
      have hpos : b.bp = c.bp := hbp.trans hc.1.symm
      have htag : b.tag = c.tag := by
        rw [← hbread b (by simp), ← hcread c (by simp), hpos]
      obtain rfl := Block.eq_of_tag hpos htag
      congr 1
      exact ih hb.2 hc.2 (fun d hd => hbs d (by simp [hd])) (fun d hd => hcs d (by simp [hd]))
        (fun d hd => hbread d (by simp [hd])) (fun d hd => hcread d (by simp [hd]))

theorem Abut.eq_of_footers (read : Nat → Tag) {bs cs : List Block} {start stop : Nat}
    (hb : Abut start bs stop) (hc : Abut start cs stop) (hbs : Sized bs) (hcs : Sized cs)
    (hbread : ∀ b ∈ bs, read b.stop = b.tag) (hcread : ∀ c ∈ cs, read c.stop = c.tag) : bs = cs := by
  -- from the last block downwards
  induction bs using List.reverseRecOn generalizing stop cs with
  | nil =>
    obtain rfl : start = stop := hb
    rcases List.eq_nil_or_concat cs with rfl | ⟨cs, c, hlast⟩
    · rfl
    · rw [List.concat_eq_append] at hlast
      subst hlast
      obtain ⟨hlow, hstop⟩ := abut_middle.1 hc
      have hstop : c.stop = start := hstop
      have hsize := (hcs c (by simp)).1
      have hle := hlow.le
      simp only [Block.stop] at hstop
      omega
  | append_singleton bs b ih =>
    obtain ⟨hblow, hbstop⟩ := abut_middle.1 hb
    have hbstop : b.stop = stop := hbstop
    have hsize := (hbs b (by simp)).1
    have hle := hblow.le
    rcases List.eq_nil_or_concat cs with rfl | ⟨cs, c, hlast⟩
    · have hnil : start = stop := hc
      simp only [Block.stop] at hbstop
      omega
    · rw [List.concat_eq_append] at hlast
      subst hlast
      obtain ⟨hclow, hcstop⟩ := abut_middle.1 hc
      have hcstop : c.stop = stop := hcstop
      have htag : b.tag = c.tag := by
        rw [← hbread b (by simp), ← hcread c (by simp), hbstop, hcstop]
      have hpos : b.bp = c.bp := by
        have hsizes : b.size = c.size := congrArg Tag.size htag
        simp only [Block.stop] at hbstop hcstop
        omega
      obtain rfl := Block.eq_of_tag hpos htag
      congr 1
      exact ih hblow hclow (fun d hd => hbs d (by simp [hd])) (fun d hd => hcs d (by simp [hd]))
        (fun d hd => hbread d (by simp [hd])) (fun d hd => hcread d (by simp [hd]))

namespace Region

variable {r r' : Region} {o o' : Outline} {ps : List Nat}

/-- The words at the positions `ps` have changed, each of them, and no byte outside them has. -/
structure Overwritten (r r' : Region) (ps : List Nat) : Prop where
  size : r'.size = r.size
  byte : ∀ i, (∀ p ∈ ps, i < p ∨ p + 4 ≤ i) → r'.byte i = r.byte i
  changed : ∀ p ∈ ps, r'.word p ≠ r.word p

theorem overwritten_blit {pos : Nat} {w : UInt32} (hfit : pos + 4 ≤ r.size) (hw : w ≠ r.word pos) :
    r.Overwritten (r.blit pos (bytesOfWord w)) [pos] := by
  have hwithin : r.Within (r.blit pos (bytesOfWord w)) pos (pos + 4) := within_blit hfit
  refine ⟨hwithin.size, fun i hi => hwithin.byte i (hi pos (by simp)), fun p hp => ?_⟩
  rw [List.mem_singleton.1 hp, word_blit_bytesOfWord hfit]
  exact hw

theorem Overwritten.word (h : r.Overwritten r' ps) {pos : Nat}
    (hpos : ∀ p ∈ ps, pos + 4 ≤ p ∨ p + 4 ≤ pos) : r'.word pos = r.word pos := by
  apply word_congr
  intro i hi hi'
  apply h.byte
  intro p hp
  have := hpos p hp
  omega

theorem Shows.eq_of_headers (h : r.Shows o) (h' : r'.Shows o') (hl : o.Laid) (hl' : o'.Laid)
    (hsize : r'.size = r.size) (hsame : ∀ b ∈ o.guarded, r'.word (b.bp - 4) = r.word (b.bp - 4)) :
    o'.guarded = o.guarded := by
  have htop : o'.top = o.top := by rw [← h'.size, ← h.size, hsize]
  apply Abut.eq_of_headers (fun pos => Tag.ofWord (r'.word (pos - 4)))
    (htop ▸ hl'.guarded_abut) hl.guarded_abut hl'.guarded_sized hl.guarded_sized
  · intro c hc
    exact (h'.tagged c hc).header
  · intro b hb
    rw [hsame b hb]
    exact (h.tagged b hb).header

theorem Shows.eq_of_footers (h : r.Shows o) (h' : r'.Shows o') (hl : o.Laid) (hl' : o'.Laid)
    (hsize : r'.size = r.size) (hsame : ∀ b ∈ o.guarded, r'.word (b.stop - 8) = r.word (b.stop - 8)) :
    o'.guarded = o.guarded := by
  have htop : o'.top = o.top := by rw [← h'.size, ← h.size, hsize]
  apply Abut.eq_of_footers (fun pos => Tag.ofWord (r'.word (pos - 8)))
    (htop ▸ hl'.guarded_abut) hl.guarded_abut hl'.guarded_sized hl.guarded_sized
  · intro c hc
    rw [(h'.tagged c hc).footer]
    exact (h'.tagged c hc).header
  · intro b hb
    rw [hsame b hb, (h.tagged b hb).footer]
    exact (h.tagged b hb).header

end Region

namespace Heap

variable {h : Heap} {o : Outline} {r' : Region} {ps : List Nat}

def headerWords (h : Heap) (bs : List Block) : List Nat :=
  (h.size - 4) :: 4 :: bs.map (·.bp - 4)

def footerWords (bs : List Block) : List Nat := 8 :: bs.map (·.stop - 8)

/-- Some headers are overwritten, or some footers. Of the epilogue's header the unused bits do not
count. -/
structure Defaced (h : Heap) (r' : Region) (bs : List Block) (ps : List Nat) : Prop where
  nonempty : ps ≠ []
  side : (∀ p ∈ ps, p ∈ h.headerWords bs) ∨ ∀ p ∈ ps, p ∈ footerWords bs
  overwritten : h.region.Overwritten r' ps
  epilogue : h.size - 4 ∈ ps →
    Tag.ofWord (r'.word (h.size - 4)) ≠ Tag.ofWord (h.region.word (h.size - 4))

theorem mem_headerWords {p : Nat} : p ∈ h.headerWords o.blocks ↔
    p = h.size - 4 ∨ ∃ b ∈ o.guarded, p = b.bp - 4 := by
  simp [headerWords, Outline.guarded, Outline.prologue, eq_comm]

theorem mem_footerWords {p : Nat} : p ∈ footerWords o.blocks ↔ ∃ b ∈ o.guarded, p = b.stop - 8 := by
  simp [footerWords, Outline.guarded, Outline.prologue, Block.stop, eq_comm]

theorem headers_off_footers (hl : o.Laid) {b c : Block} (hb : b ∈ o.guarded) (hc : c ∈ o.guarded) :
    b.bp - 4 + 4 ≤ c.stop - 8 ∨ c.stop - 8 + 4 ≤ b.bp - 4 := by
  have hbsize := (hl.guarded_sized b hb).1
  have hcsize := (hl.guarded_sized c hc).1
  have hblow := (hl.guarded_abut.bounds hb).1
  have hclow := (hl.guarded_abut.bounds hc).1
  rcases hl.guarded_abut.disjoint hb hc with rfl | hd | hd
  · simp only [Block.stop]
    omega
  · simp only [Block.stop] at *
    omega
  · simp only [Block.stop] at *
    omega

theorem Defaced.headers_absurd {o' : Outline} (hdef : h.Defaced r' o.blocks ps)
    (hside : ∀ p ∈ ps, p ∈ h.headerWords o.blocks) (hd : h.Depicts o) (hl : o.Laid)
    (hs' : r'.Shows o') (hl' : o'.Laid) : False := by
  have htags := hd.region.tagged
  have hover := hdef.overwritten
  have hsize : h.size = o.top := hd.size
  have hfooters : ∀ b ∈ o.guarded, r'.word (b.stop - 8) = h.region.word (b.stop - 8) := by
    intro b hb
    apply hover.word
    intro p hp
    have hbounds := hl.guarded_abut.bounds hb
    rcases mem_headerWords.1 (hside p hp) with rfl | ⟨c, hc, rfl⟩
    · have := (hl.guarded_sized b hb).1
      simp only [Block.stop] at *
      omega
    · exact (headers_off_footers hl hc hb).symm
  -- The footers lead to the blocks of before, so the headers are those of before as well.
  have hsame := hd.region.eq_of_footers hs' hl hl' hover.size hfooters
  obtain ⟨p, hp⟩ := List.exists_mem_of_ne_nil ps hdef.nonempty
  rcases mem_headerWords.1 (hside p hp) with rfl | ⟨b, hb, rfl⟩
  · apply hdef.epilogue hp
    have htop : o'.top = h.size := by rw [← hs'.size, hover.size]; rfl
    rw [← htop, hs'.epilogue, htop, hsize, hd.region.epilogue]
  · apply hover.changed _ hp
    rw [← (hs'.tagged b (hsame ▸ hb)).footer, hfooters b hb, (htags b hb).footer]

theorem Defaced.footers_absurd {o' : Outline} (hdef : h.Defaced r' o.blocks ps)
    (hside : ∀ p ∈ ps, p ∈ footerWords o.blocks) (hd : h.Depicts o) (hl : o.Laid)
    (hs' : r'.Shows o') (hl' : o'.Laid) : False := by
  have htags := hd.region.tagged
  have hover := hdef.overwritten
  have hheaders : ∀ b ∈ o.guarded, r'.word (b.bp - 4) = h.region.word (b.bp - 4) := by
    intro b hb
    apply hover.word
    intro p hp
    obtain ⟨c, hc, rfl⟩ := mem_footerWords.1 (hside p hp)
    exact headers_off_footers hl hb hc
  have hsame := hd.region.eq_of_headers hs' hl hl' hover.size hheaders
  obtain ⟨p, hp⟩ := List.exists_mem_of_ne_nil ps hdef.nonempty
  obtain ⟨b, hb, rfl⟩ := mem_footerWords.1 (hside p hp)
  apply hover.changed _ hp
  rw [(hs'.tagged b (hsame ▸ hb)).footer, hheaders b hb, (htags b hb).footer]

/-- On any heap that the checker accepts, overwriting headers alone or footers alone is found out, be it
one word or all of them and whatever stands in the payloads. -/
theorem defaced_heap_faulted {h : Heap} (hf : h.faults = .ok []) :
    ∃ bs, h.blocks = .ok bs ∧ ∀ r' ps, h.Defaced r' bs ps →
      ∃ fs, (h.withRegion r').faults = .ok fs ∧ fs ≠ [] := by
  obtain ⟨o, hd, hv, -⟩ := depicts_of_faultless hf
  have hl := hv.toLaid
  refine ⟨o.blocks, hd.blocks hl, fun r' ps hdef => ?_⟩
  have hsize : (h.withRegion r').size = o.top := hdef.overwritten.size.trans hd.size
  have hlarge : 8 ≤ (h.withRegion r').size := by
    rw [hsize]
    exact Nat.le_trans (by decide) hl.top_ge
  obtain ⟨fs, hfs⟩ := faults_total hlarge
  refine ⟨fs, hfs, ?_⟩
  rintro rfl
  obtain ⟨o', hd', hv', -⟩ := depicts_of_faultless hfs
  rcases hdef.side with hside | hside
  · exact hdef.headers_absurd hside hd hl hd'.region hv'.toLaid
  · exact hdef.footers_absurd hside hd hl hd'.region hv'.toLaid

/-- A heap of one block whose payload imitates tags: a footer at 24 and a header at 28. -/
def imitating : Heap where
  arena := ⟨4096, ⟨⟨#[0, 0, 0, 0, 9, 0, 0, 0, 9, 0, 0, 0, 41, 0, 0, 0, 1, 2, 3, 4, 5, 6, 7, 8,
    17, 0, 0, 0, 25, 0, 0, 0, 1, 1, 1, 1, 1, 1, 1, 1, 1, 1, 1, 1, 25, 0, 0, 0, 41, 0, 0, 0,
    1, 0, 0, 0]⟩⟩, ⟨ByteArray.empty⟩, 64⟩
  settings := ⟨16, 64, false⟩
  cursor := 16
  live := none

theorem imitating_heap_faulted : imitating.faults = .ok [] ∧
    ∃ fs, (imitating.withRegion (imitating.region.blit 12 (bytesOfWord 17))).faults = .ok fs ∧
      fs ≠ [] := by
  -- With its header overwritten the block seems to end in the middle of its payload.
  have hfaults : imitating.faults = .ok [] := by decide +kernel
  have hblocks : imitating.blocks = .ok [⟨16, 40, true⟩] := by decide +kernel
  obtain ⟨bs, hbs, hdefaced⟩ := defaced_heap_faulted hfaults
  obtain rfl := Except.ok.inj (hblocks.symm.trans hbs)
  have hdef : imitating.Defaced (imitating.region.blit 12 (bytesOfWord 17)) [⟨16, 40, true⟩] [12] := by
    refine ⟨by decide, .inl (by decide), Region.overwritten_blit (by decide) (by decide +kernel), ?_⟩
    intro hmem
    exact absurd hmem (by decide)
  exact ⟨hfaults, hdefaced _ _ hdef⟩

end Heap

end BoundaryTag
