import BoundaryTag.Proofs.Client
import BoundaryTag.Proofs.Rounding
import BoundaryTag.Proofs.Safety

/-!
# When a request is served

What a heap that the checker accepts answers to a request depends on three numbers only: the size of
the largest free block, the bytes left below the limit, and the chunk. A refusal changes nothing. The heap
grows when no free block is large enough and never else, so what has been released can be had again
without growing. All this is so where the live set, if there is one, is that of the allocated blocks: the
checker reads tags only, and a block that is free by its tags but still live is not given out.
-/

set_option autoImplicit false

namespace BoundaryTag

def Exhausted (bs : List Block) (want : Nat) : Prop :=
  ∀ b ∈ bs, b.allocated = false → b.size < want

instance (bs : List Block) (want : Nat) : Decidable (Exhausted bs want) :=
  inferInstanceAs (Decidable (∀ b ∈ bs, b.allocated = false → b.size < want))

namespace Outline

variable {o m : Outline} {s : Settings} {b : Block} {want : Nat}

theorem supply_top (hs : s.Accepted) (h : o.supply s want = some (b, m)) :
    (m.top = o.top ↔ ¬ Exhausted o.blocks want) ∧
      (Exhausted o.blocks want → m.top = o.top + max want s.chunk) := by
  have hchunk := hs.chunk
  rw [Exhausted, ← find?_eq_none]
  rcases supply_cases h with ⟨hfind, rfl⟩ | ⟨hfind, -, -, rfl⟩
  · simp [hfind]
  · rw [extend_top]
    refine ⟨⟨fun htop => ?_, fun hnot => absurd hfind hnot⟩, fun _ => rfl⟩
    omega

end Outline

namespace Heap

variable {h : Heap} {o : Outline} {bs : List Block} {size want : Nat}

/-- Why a request for `size` bytes, which a block of `want` bytes would serve, is refused: it asks for
nothing, no tag word could hold the size of the block, or no free block is large enough and the growth
that would make one passes the limit. -/
def Refuses (h : Heap) (bs : List Block) (size want : Nat) : Prop :=
  size = 0 ∨ maxBlock < want ∨
    Exhausted bs want ∧ h.settings.limit - h.size < max want h.settings.chunk

instance (h : Heap) (bs : List Block) (size want : Nat) : Decidable (h.Refuses bs size want) :=
  inferInstanceAs (Decidable (_ ∨ _ ∨ _ ∧ _))

/-- The answer to a request for `size` bytes, which a block of `want` bytes serves. -/
structure Answers (h : Heap) (bs : List Block) (j : Array Event) (size want : Nat) : Prop where
  refused : h.Refuses bs size want → ∃ j', allocate size ⟨h, j⟩ = .ok none ⟨h, j'⟩
  served : ¬ h.Refuses bs size want → ∃ bp n, allocate size ⟨h, j⟩ = .ok (some bp) n ∧
    n.heap.ListsAllocated bp ∧ (n.heap.size = h.size ↔ ¬ Exhausted bs want) ∧
      (Exhausted bs want → n.heap.size = h.size + max want h.settings.chunk)

theorem Sound.lists {s : Settings} {o' : Outline} {c : Block} (hs : h.Sound o')
    (hg : o.Granted s size c o') : h.ListsAllocated c.bp :=
  (listsAllocated_iff hs.depicts hs.valid.toLaid).2 (hg.mem_held.2 (.inl rfl))

theorem Sound.refuses_iff (hs : h.Sound o) : h.Refuses o.blocks size want ↔
    size = 0 ∨ maxBlock < want ∨ o.supply h.settings want = none := by
  rw [Refuses, Outline.supply_eq_none, Outline.find?_eq_none, hs.depicts.size]
  exact Iff.rfl

theorem Sound.refuses (hs : h.Sound o) (hwant : LeastBlock size want)
    (hrefuses : h.Refuses o.blocks size want) (j : Array Event) :
    ∃ j', allocate size ⟨h, j⟩ = .ok none ⟨h, j'⟩ := by
  apply allocate_none hs
  rcases Outline.allocate_cases h.settings size o with
    hnone | ⟨want', b, m, hpos, hblock, hsupply, -⟩
  · rw [hnone]
  · -- A block is supplied only where none of the three reasons holds.
    rw [blockSizeFor_eq hwant] at hblock
    split at hblock
    · next hle =>
      obtain rfl := Option.some.inj hblock
      rcases hs.refuses_iff.1 hrefuses with hzero | hlarge | hnone
      · omega
      · omega
      · rw [hnone] at hsupply
        cases hsupply
    · cases hblock

theorem Sound.serves (hs : h.Sound o) (hwant : LeastBlock size want)
    (hserves : ¬ h.Refuses o.blocks size want) (j : Array Event) :
    ∃ bp n, allocate size ⟨h, j⟩ = .ok (some bp) n ∧ n.heap.ListsAllocated bp ∧
      (n.heap.size = h.size ↔ ¬ Exhausted o.blocks want) ∧
        (Exhausted o.blocks want → n.heap.size = h.size + max want h.settings.chunk) := by
  simp only [hs.refuses_iff, not_or, Nat.not_lt] at hserves
  obtain ⟨hpos, hle, hsome⟩ := hserves
  have hblock : blockSizeFor size = some want := (blockSizeFor_eq hwant).trans (if_pos hle)
  obtain ⟨⟨b, m⟩, hsupply⟩ := Option.ne_none_iff_exists'.1 hsome
  obtain ⟨h', j', hrun, hs', -⟩ := allocate_some hs (Nat.pos_of_ne_zero hpos) hblock hsupply j
  have hg := Outline.granted hs.accepted hs.valid hs.room hblock hsupply
  have hlisted := hs'.lists hg
  have htop : h'.size = m.top := hs'.depicts.size
  obtain ⟨hsame, hgrown⟩ := Outline.supply_top hs.accepted hsupply
  rw [← htop, ← hs.depicts.size] at hsame hgrown
  exact ⟨b.bp, ⟨h', j'⟩, hrun, hlisted, hsame, hgrown⟩

theorem Sound.answers (hs : h.Sound o) (hwant : LeastBlock size want) (j : Array Event) :
    h.Answers o.blocks j size want :=
  ⟨fun hrefuses => hs.refuses hwant hrefuses j, fun hserves => hs.serves hwant hserves j⟩

theorem Sound.serves_again {h' : Heap} {b : Block} (hs : h.Sound o) (hr : o.Roomy) (hb : b ∈ o.blocks)
    (hs' : h'.Sound (o.release b.bp)) (hpos : 1 ≤ size) (hroom : size ≤ b.size - 8)
    (j : Array Event) :
    ∃ found n, allocate size ⟨h', j⟩ = .ok (some found) n ∧ n.heap.size = h'.size := by
  obtain ⟨want, hwant⟩ : ∃ want, LeastBlock size want := ⟨_, leastBlock_iff.2 rfl⟩
  have hbounds := hs.valid.bounds hb
  have hbig := hr b hb
  have htop := hs.top_le
  have hle : want ≤ b.size := by
    have := leastBlock_iff.1 hwant
    omega
  have hmax : want ≤ maxBlock := by
    simp only [Block.stop] at hbounds
    omega
  -- Wherever the released block has gone, a free block at least as large holds it now.
  have hfit : ¬ Exhausted (o.release b.bp).blocks want := by
    intro hfull
    obtain ⟨c, hc, hfree, hlow, hstop⟩ := Outline.release_joins hs.valid hb
    have hsmall := hfull c hc hfree
    simp only [Block.stop] at hstop
    omega
  have hserves : ¬ h'.Refuses (o.release b.bp).blocks size want := by
    rintro (hzero | hlarge | ⟨hfull, -⟩)
    · omega
    · omega
    · exact hfit hfull
  obtain ⟨bp, n, hrun, -, hsame, -⟩ := hs'.serves hwant hserves j
  exact ⟨bp, n, hrun, hsame.2 hfit⟩

/-- On every heap that the checker accepts and whose live set, if any, fits its tags: which requests are
refused, with nothing changed, by how much the others make the heap grow, and that a released block makes
room for requests of its size. -/
theorem allocation_answers (hc : h.Certified) (j : Array Event) : ∃ bs, h.blocks = .ok bs ∧
    (∀ size, ∃ want, LeastBlock size want ∧ h.Answers bs j size want) ∧
    ∀ bp, h.ListsAllocated bp → ∃ room n, h.payloadSize bp = .ok room ∧
      release bp ⟨h, j⟩ = .ok () n ∧ ∀ size, 1 ≤ size → size ≤ room →
        ∃ found n', allocate size n = .ok (some found) n' ∧ n'.heap.size = h.size := by
  obtain ⟨o, hs, hr, -⟩ := hc.sound
  have hl := hs.valid.toLaid
  refine ⟨o.blocks, hs.depicts.blocks hl, fun size => ?_, fun bp hlisted => ?_⟩
  · exact ⟨_, leastBlock_iff.2 rfl, hs.answers (leastBlock_iff.2 rfl) j⟩
  · have hheld : bp ∈ o.held := (listsAllocated_iff hs.depicts hl).1 hlisted
    obtain ⟨b, hb, -, rfl⟩ := Outline.mem_held.1 hheld
    obtain ⟨h', j', hrelease, hs', -⟩ := release_run hs hheld j
    refine ⟨b.size - 8, ⟨h', j'⟩, hs.depicts.payloadSize hl hb, hrelease, fun size hpos hroom => ?_⟩
    obtain ⟨found, n, hrun, hsame⟩ := hs.serves_again hr hb hs' hpos hroom j'
    have hsize' : h'.size = o.top := hs'.depicts.size
    exact ⟨found, n, hrun, by rw [hsame, hsize', hs.depicts.size]⟩

/-- Free and allocated blocks in turn, with the cursor in the middle and 48 bytes left to grow by. -/
def checkered : Heap where
  arena := ⟨4096, ⟨⟨#[
    0, 0, 0, 0, 9, 0, 0, 0, 9, 0, 0, 0, 32, 0, 0, 0,
    0, 0, 0, 0, 0, 0, 0, 0, 0, 0, 0, 0, 0, 0, 0, 0,
    0, 0, 0, 0, 0, 0, 0, 0, 32, 0, 0, 0, 17, 0, 0, 0,
    1, 2, 3, 4, 5, 6, 7, 8, 17, 0, 0, 0, 16, 0, 0, 0,
    0, 0, 0, 0, 0, 0, 0, 0, 16, 0, 0, 0, 17, 0, 0, 0,
    8, 7, 6, 5, 4, 3, 2, 1, 17, 0, 0, 0, 16, 0, 0, 0,
    0, 0, 0, 0, 0, 0, 0, 0, 16, 0, 0, 0, 1, 0, 0, 0]⟩⟩,
    ⟨ByteArray.empty⟩, 160⟩
  settings := ⟨16, 160, true⟩
  cursor := 64
  live := some ⟨[48, 80], by decide⟩

theorem checkered_blocks : checkered.blocks = .ok [⟨16, 32, false⟩, ⟨48, 16, true⟩, ⟨64, 16, false⟩,
    ⟨80, 16, true⟩, ⟨96, 16, false⟩] := by decide +kernel

theorem checkered_certified : checkered.Certified where
  settings := ⟨⟨16, 160, true⟩, by decide +kernel⟩
  capacity := rfl
  size := by decide +kernel
  faultless := by decide +kernel
  tracked := by
    intro live hl bp
    obtain rfl := Option.some.inj hl
    rw [listsAllocated_of_blocks checkered_blocks]
    show bp ∈ [48, 80] ↔ _
    simp [@eq_comm _ _ bp]

theorem checkered_allocation_answers : checkered.Certified ∧
    (∃ j, allocate 41 ⟨checkered, #[]⟩ = .ok none ⟨checkered, j⟩) ∧
    (∃ bp n, allocate 40 ⟨checkered, #[]⟩ = .ok (some bp) n ∧ n.heap.size = 160) ∧
    (∃ bp n, allocate 24 ⟨checkered, #[]⟩ = .ok (some bp) n ∧ n.heap.size = 112) ∧
    ∃ n bp n', release 48 ⟨checkered, #[]⟩ = .ok () n ∧ allocate 8 n = .ok (some bp) n' ∧
      n'.heap.size = 112 := by
  -- A request for one byte more than can be had by growing, one for all of that, one for what the
  -- largest free block holds, and one for what has just been released.
  obtain ⟨bs, hblocks, hanswers, hback⟩ := allocation_answers checkered_certified #[]
  rw [checkered_blocks] at hblocks
  obtain rfl := Except.ok.inj hblocks
  have hsize : checkered.size = 112 := by decide +kernel
  refine ⟨checkered_certified, ?_, ?_, ?_, ?_⟩
  · obtain ⟨want, hwant, hanswer⟩ := hanswers 41
    obtain rfl := leastBlock_iff.1 hwant
    exact hanswer.refused (by decide +kernel)
  · obtain ⟨want, hwant, hanswer⟩ := hanswers 40
    obtain rfl := leastBlock_iff.1 hwant
    obtain ⟨bp, n, hrun, -, -, hgrown⟩ := hanswer.served (by decide +kernel)
    exact ⟨bp, n, hrun, hgrown (by decide)⟩
  · obtain ⟨want, hwant, hanswer⟩ := hanswers 24
    obtain rfl := leastBlock_iff.1 hwant
    obtain ⟨bp, n, hrun, -, hsame, -⟩ := hanswer.served (by decide +kernel)
    exact ⟨bp, n, hrun, (hsame.2 (by decide)).trans hsize⟩
  · have hlisted : checkered.ListsAllocated 48 :=
      (listsAllocated_of_blocks checkered_blocks).2 ⟨⟨48, 16, true⟩, by decide, rfl, rfl⟩
    have hroom : checkered.payloadSize 48 = .ok 8 := by decide +kernel
    obtain ⟨room, n, hpayload, hrelease, hserves⟩ := hback 48 hlisted
    obtain rfl := Except.ok.inj (hroom.symm.trans hpayload)
    obtain ⟨bp, n', hrun, hsame⟩ := hserves 8 (by decide) (by decide)
    exact ⟨n, bp, n', hrelease, hrun, hsame.trans hsize⟩

/-- Two neighbours are released and their room is carved anew. Writes through the position of the second,
which is stale by then, make the tags of the live block at 64 those of a free one. -/
def mistracking : List Act :=
  [.allocate 8, .allocate 8, .release 32, .release 16, .allocate 40, .allocate 8, .allocate 8, .allocate 8,
    .write 32 28 ⟨#[16, 0, 0, 0]⟩, .write 32 40 ⟨#[16, 0, 0, 0]⟩]

def mistracked : Heap where
  arena := ⟨4096, ⟨⟨#[
    0, 0, 0, 0, 9, 0, 0, 0, 9, 0, 0, 0, 49, 0, 0, 0,
    0, 0, 0, 0, 0, 0, 0, 0, 16, 0, 0, 0, 80, 0, 0, 0,
    0, 0, 0, 0, 0, 0, 0, 0, 16, 0, 0, 0, 64, 0, 0, 0,
    0, 0, 0, 0, 0, 0, 0, 0, 49, 0, 0, 0, 16, 0, 0, 0,
    0, 0, 0, 0, 0, 0, 0, 0, 16, 0, 0, 0, 17, 0, 0, 0,
    0, 0, 0, 0, 0, 0, 0, 0, 17, 0, 0, 0, 17, 0, 0, 0,
    0, 0, 0, 0, 0, 0, 0, 0, 17, 0, 0, 0, 1, 0, 0, 0]⟩⟩,
    ⟨ByteArray.empty⟩, 256⟩
  settings := ⟨96, 256, true⟩
  cursor := 112
  live := some ⟨[16, 64, 80, 96], by decide⟩

theorem mistracked_reached :
    Client.heapAfter ⟨96, 256, true⟩ 4096 mistracking = .ok mistracked := by decide +kernel

theorem mistracked_intact : mistracked.Intact where
  settings := ⟨⟨96, 256, true⟩, by decide +kernel⟩
  capacity := rfl
  size := by decide +kernel
  faultless := by decide +kernel

theorem mistracked_blocks : mistracked.blocks = .ok [⟨16, 48, true⟩, ⟨64, 16, false⟩, ⟨80, 16, true⟩,
    ⟨96, 16, true⟩] := by decide +kernel

theorem mistracked_traps :
    ∃ n, allocate 8 ⟨mistracked, #[]⟩ = .error (.trapped (.handedOutTwice 64)) n :=
  error_of_outcome (by decide +kernel)

/-- Where the live set does not fit the tags, a request that is to be served meets a trap. -/
theorem mistracked_heap_withholds :
    Client.heapAfter ⟨96, 256, true⟩ 4096 mistracking = .ok mistracked ∧ mistracked.Intact ∧
    ∃ bs, mistracked.blocks = .ok bs ∧ LeastBlock 8 16 ∧ ¬ mistracked.Refuses bs 8 16 ∧
      (∃ n, allocate 8 ⟨mistracked, #[]⟩ = .error (.trapped (.handedOutTwice 64)) n) ∧
      ¬ mistracked.Answers bs #[] 8 16 := by
  have hserves : ¬ mistracked.Refuses [⟨16, 48, true⟩, ⟨64, 16, false⟩, ⟨80, 16, true⟩,
      ⟨96, 16, true⟩] 8 16 := by decide +kernel
  refine ⟨mistracked_reached, mistracked_intact, _, mistracked_blocks, leastBlock_iff.2 rfl, hserves,
    mistracked_traps, fun hanswers => ?_⟩
  obtain ⟨bp, n, hrun, -⟩ := hanswers.served hserves
  obtain ⟨n', htrap⟩ := mistracked_traps
  cases hrun.symm.trans htrap

end Heap

end BoundaryTag
