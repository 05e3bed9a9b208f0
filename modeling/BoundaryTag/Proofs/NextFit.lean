import BoundaryTag.Proofs.Serving

/-!
# Next fit

Which block a request is given, and where the cursor stands afterwards. The search takes the first free
block that is large enough, from the cursor up to the top and then from the bottom up to the cursor, and
the cursor moves behind it. Where the heap grows, the new bytes and a free block below them are given, and
the cursor moves only when that is where it stood.
-/

set_option autoImplicit false

namespace BoundaryTag

/-- The blocks from the cursor on, then those before it. -/
def rotated (cursor : Nat) (bs : List Block) : List Block :=
  bs.filter (cursor ≤ ·.bp) ++ bs.filter (·.bp < cursor)

def freeTop (top : Nat) (bs : List Block) : Nat :=
  match bs.getLast? with
  | some b => if b.allocated then top else b.bp
  | none => top

namespace Outline

variable {o m : Outline} {s : Settings} {b c : Block} {bytes want : Nat}

theorem rotated_guarded (h : o.Laid) :
    o.guarded.dropWhile (·.bp < o.cursor) ++ o.guarded.takeWhile (·.bp < o.cursor) =
      rotated o.cursor o.guarded := by
  obtain ⟨xs, ys, hsplit, hxs, hys⟩ := h.cursor.split h.guarded_abut
  have hsized := h.guarded_sized
  rw [hsplit, sized_append] at hsized
  have hdrop : o.guarded.dropWhile (·.bp < o.cursor) = ys := hsplit ▸ dropWhile_abut hsized.1 hxs hys
  have htake : o.guarded.takeWhile (·.bp < o.cursor) = xs := by
    apply (List.append_left_inj ys).1
    rw [← hsplit, ← hdrop, List.takeWhile_append_dropWhile]
  have hbefore : ∀ x ∈ xs, x.bp < o.cursor := by
    intro x hx
    have hsize := (hsized.1 x hx).1
    have hstop := (hxs.bounds hx).2
    simp only [Block.stop] at hstop
    omega
  have hfrom : ∀ y ∈ ys, o.cursor ≤ y.bp := fun y hy => (hys.bounds hy).1
  have hhigh : o.guarded.filter (o.cursor ≤ ·.bp) = ys := by
    rw [hsplit, List.filter_append, List.filter_eq_nil_iff.2, List.filter_eq_self.2, List.nil_append]
    · simpa using hfrom
    · simpa using hbefore
  have hlow : o.guarded.filter (·.bp < o.cursor) = xs := by
    rw [hsplit, List.filter_append, List.filter_eq_self.2, List.filter_eq_nil_iff.2, List.append_nil]
    · simpa using hfrom
    · simpa using hbefore
  rw [hdrop, htake, rotated, hhigh, hlow]

theorem find?_eq_rotated (h : o.Laid) (want : Nat) :
    o.find? want = (rotated o.cursor o.blocks).find? (Block.fits want) := by
  -- The prologue is passed over wherever it stands.
  have hskip : ∀ p : Block → Bool, (o.guarded.filter p).find? (Block.fits want) =
      (o.blocks.filter p).find? (Block.fits want) := by
    intro p
    rw [List.find?_filter, List.find?_filter, guarded, List.find?_cons_of_neg]
    simp [prologue, Block.fits]
  rw [find?, rotated_guarded h, rotated, rotated, List.find?_append, List.find?_append, hskip, hskip]

theorem crown_bp (bytes : Nat) (o : Outline) : (o.crown bytes).bp = freeTop o.top o.blocks := by
  rw [crown, freeTop]
  cases o.blocks.getLast? with
  | none => rfl
  | some b =>
    dsimp only
    split <;> rfl

theorem extend_cursor (h : o.Valid) (hb : 8 ≤ bytes ∧ bytes % 8 = 0) : (o.extend bytes).cursor =
    if (o.crown bytes).bp ≤ o.cursor then (o.crown bytes).bp else o.cursor := by
  have hv := extend_valid h.toLaid hb
  have hmem := (crown_mem bytes h).1
  obtain ⟨xs, hblocks, hcase⟩ := extend_blocks bytes h
  have htop : o.cursor ≤ o.top := (h.cursor.bounds h.guarded_abut).2
  have habut := hv.abut
  rw [hblocks] at habut
  have hlast : (o.crown bytes).stop = o.top + bytes := (abut_middle.1 habut).2
  show home (o.extend bytes).blocks o.cursor = _
  split
  · next hlow => exact home_within hv.abut hmem hlow (by omega)
  · next hlow =>
    -- The crown is the only new block, so a cursor below it stands on a boundary as before.
    apply home_of_not_inside
    intro c hc hin
    rw [hblocks, List.mem_append, List.mem_singleton] at hc
    rcases hc with hc | rfl
    · have hold : c ∈ o.blocks := by
        rcases hcase with ⟨hsame, -⟩ | ⟨b, hsame, -⟩ <;> simp [hsame, hc]
      exact Boundary.not_inside h.guarded_abut h.cursor (List.mem_cons_of_mem _ hold) hin
    · omega

end Outline

namespace Heap

variable {h : Heap} {o : Outline} {bs : List Block} {size want : Nat}

/-- The block at `bp` is in use, and the cursor stands where the next block begins, or at the top where
there is none. -/
def CursorAfter (h : Heap) (bp : Nat) : Prop :=
  ∃ xs c ys, h.blocks = .ok (xs ++ c :: ys) ∧ c.bp = bp ∧ c.allocated = true ∧
    h.cursor = (ys.head?.map Block.bp).getD h.size

theorem Depicts.cursorAfter {c : Block} (hd : h.Depicts o) (hl : o.Laid) (hc : c ∈ o.inUse)
    (hcursor : o.cursor = c.stop) : h.CursorAfter c.bp := by
  obtain ⟨hmem, halloc⟩ := Outline.mem_inUse.1 hc
  obtain ⟨xs, ys, hsplit⟩ := List.append_of_mem hmem
  have habut := hl.abut
  rw [hsplit] at habut
  have hys := (abut_middle.1 habut).2
  refine ⟨xs, c, ys, hsplit ▸ hd.blocks hl, rfl, halloc, ?_⟩
  rw [hd.cursor, hcursor, hd.size]
  cases ys with
  | nil => exact hys
  | cons d ys => exact hys.1.symm

theorem occupied_cursorAfter {m : Outline} {b : Block} {s : Settings} (hs : h.Sound (m.occupy b want))
    (hg : o.Granted s size ⟨b.bp, b.share want, true⟩ (m.occupy b want)) (hcursor : m.cursor = b.bp) :
    h.CursorAfter b.bp :=
  hs.depicts.cursorAfter (c := ⟨b.bp, b.share want, true⟩) hs.valid.toLaid hg.mem (if_pos hcursor)

/-- How a heap of blocks `bs` serves a request for `size` bytes, for which a block of `want` bytes is
wanted: by the first in the order of the search that is large enough, or by growing. -/
structure Chooses (h : Heap) (bs : List Block) (j : Array Event) (size want : Nat) : Prop where
  first : (∃ b ∈ bs, b.allocated = false ∧ want ≤ b.size) →
    ∃ b n, (rotated h.cursor bs).find? (Block.fits want) = some b ∧
      allocate size ⟨h, j⟩ = .ok (some b.bp) n ∧ n.heap.CursorAfter b.bp
  grown : Exhausted bs want → max want h.settings.chunk ≤ h.settings.limit - h.size →
    ∃ n, allocate size ⟨h, j⟩ = .ok (some (freeTop h.size bs)) n ∧
      n.heap.ListsAllocated (freeTop h.size bs) ∧
      n.heap.size = h.size + max want h.settings.chunk ∧
      if freeTop h.size bs ≤ h.cursor ∧ h.cursor < n.heap.size then
        n.heap.CursorAfter (freeTop h.size bs)
      else n.heap.cursor = h.cursor

theorem Sound.takes_first {b : Block} (hs : h.Sound o) (hpos : 0 < size)
    (hwant : blockSizeFor size = some want) (hfind : o.find? want = some b) (j : Array Event) :
    ∃ n, allocate size ⟨h, j⟩ = .ok (some b.bp) n ∧ n.heap.CursorAfter b.bp := by
  have hsupply : o.supply h.settings want = some (b, { o with cursor := b.bp }) := by
    rw [Outline.supply, hfind]
  obtain ⟨h', j', hrun, hs', -⟩ := allocate_some hs hpos hwant hsupply j
  have hg := Outline.granted hs.accepted hs.valid hs.room hwant hsupply
  exact ⟨⟨h', j'⟩, hrun, occupied_cursorAfter hs' hg rfl⟩

theorem Sound.takes_top (hs : h.Sound o) (hpos : 0 < size) (hwant : blockSizeFor size = some want)
    (hfind : o.find? want = none) (hroom : max want h.settings.chunk ≤ h.settings.limit - o.top)
    (j : Array Event) : ∃ n, allocate size ⟨h, j⟩ = .ok (some (freeTop o.top o.blocks)) n ∧
      n.heap.ListsAllocated (freeTop o.top o.blocks) ∧ n.heap.size = o.top + max want h.settings.chunk ∧
      if freeTop o.top o.blocks ≤ o.cursor then n.heap.CursorAfter (freeTop o.top o.blocks)
      else n.heap.cursor = o.cursor := by
  obtain ⟨bytes, hbytes⟩ : ∃ bytes, bytes = max want h.settings.chunk := ⟨_, rfl⟩
  obtain ⟨hw, hw8, hwmax, -⟩ := bounds_of_blockSizeFor hwant
  obtain ⟨hlow, hmod, -⟩ := Outline.growth_bounds hs.accepted ⟨hw, hw8, hwmax⟩
  rw [← hbytes] at hroom hlow hmod ⊢
  have hsupply : o.supply h.settings want = some (o.crown bytes, o.extend bytes) := by
    simp only [Outline.supply, hfind, ← hbytes]
    exact if_neg (Nat.not_lt.2 hroom)
  obtain ⟨h', j', hrun, hs', -⟩ := allocate_some hs hpos hwant hsupply j
  have hg := Outline.granted hs.accepted hs.valid hs.room hwant hsupply
  have hcursor := Outline.extend_cursor hs.valid ⟨hlow, hmod⟩
  have hlisted := hs'.lists hg
  rw [← Outline.crown_bp bytes]
  refine ⟨⟨h', j'⟩, hrun, hlisted, hs'.depicts.size, ?_⟩
  split
  · next hin =>
    rw [if_pos hin] at hcursor
    exact occupied_cursorAfter hs' hg hcursor
  · next hout =>
    rw [if_neg hout] at hcursor
    have hne : (o.extend bytes).cursor ≠ (o.crown bytes).bp := by omega
    have hsame : ((o.extend bytes).occupy (o.crown bytes) want).cursor = (o.extend bytes).cursor :=
      if_neg hne
    exact hs'.depicts.cursor.trans (hsame.trans hcursor)

theorem Sound.chooses (hs : h.Sound o) (hpos : 0 < size) (hwant : blockSizeFor size = some want)
    (j : Array Event) : h.Chooses o.blocks j size want := by
  have hl := hs.valid.toLaid
  have hsize := hs.depicts.size
  have hcursor := hs.depicts.cursor
  constructor
  · rintro ⟨b, hb, hfree, hle⟩
    cases hfind : o.find? want with
    | none => exact absurd (Outline.find?_eq_none.1 hfind b hb hfree) (Nat.not_lt.2 hle)
    | some c =>
      obtain ⟨n, hrun, hafter⟩ := hs.takes_first hpos hwant hfind j
      rw [Outline.find?_eq_rotated hl, ← hcursor] at hfind
      exact ⟨c, n, hfind, hrun, hafter⟩
  · intro hfull hroom
    rw [hsize] at hroom ⊢
    obtain ⟨n, hrun, hlisted, htop, hafter⟩ :=
      hs.takes_top hpos hwant (Outline.find?_eq_none.2 hfull) hroom j
    have hbelow : h.cursor < n.heap.size := by
      have := (hl.cursor.bounds hl.guarded_abut).2
      have := (bounds_of_blockSizeFor hwant).1
      omega
    refine ⟨n, hrun, hlisted, htop, ?_⟩
    rw [← hcursor] at hafter
    simpa only [hbelow, and_true] using hafter

/-- On every heap that the checker accepts and whose live set, if any, fits its tags: a request for
nothing gets nothing, and any other that a block can serve is given the next fit. -/
theorem allocation_takes_next_fit (hc : h.Certified) (j : Array Event) : ∃ bs, h.blocks = .ok bs ∧
    (bs.map Block.bp).Pairwise (· < ·) ∧ allocate 0 ⟨h, j⟩ = .ok none ⟨h, j⟩ ∧
    ∀ size want, 0 < size → blockSizeFor size = some want → h.Chooses bs j size want := by
  obtain ⟨o, hs, -, -⟩ := hc.sound
  have hl := hs.valid.toLaid
  exact ⟨o.blocks, hs.depicts.blocks hl, hl.abut.ascending hl.sized, rfl,
    fun size want hpos hwant => hs.chooses hpos hwant j⟩

theorem checkered_allocation_takes_next_fit : checkered.Certified ∧
    (∃ n, allocate 8 ⟨checkered, #[]⟩ = .ok (some 64) n ∧ n.heap.CursorAfter 64) ∧
    (∃ n, allocate 16 ⟨checkered, #[]⟩ = .ok (some 16) n ∧ n.heap.CursorAfter 16) ∧
    ∃ n, allocate 40 ⟨checkered, #[]⟩ = .ok (some 96) n ∧ n.heap.size = 160 ∧ n.heap.cursor = 64 := by
  -- The block at the cursor, one that is found by going around, and one for which the heap grows
  -- where the cursor is not.
  obtain ⟨bs, hblocks, -, -, hchooses⟩ := allocation_takes_next_fit checkered_certified #[]
  rw [checkered_blocks] at hblocks
  obtain rfl := Except.ok.inj hblocks
  refine ⟨checkered_certified, ?_, ?_, ?_⟩
  · obtain ⟨b, n, hfirst, hrun, hafter⟩ := (hchooses 8 16 (by decide) rfl).first (by decide)
    obtain rfl := Option.some.inj hfirst
    exact ⟨n, hrun, hafter⟩
  · obtain ⟨b, n, hfirst, hrun, hafter⟩ := (hchooses 16 24 (by decide) rfl).first (by decide)
    obtain rfl := Option.some.inj hfirst
    exact ⟨n, hrun, hafter⟩
  · obtain ⟨n, hrun, -, hsize, hcursor⟩ :=
      (hchooses 40 48 (by decide) rfl).grown (by decide) (by decide +kernel)
    exact ⟨n, hrun, hsize, hcursor⟩

def FirstFit (h : Heap) (size : Nat) (b : Block) : Prop :=
  ∃ bs want, h.blocks = .ok bs ∧ blockSizeFor size = some want ∧
    (rotated h.cursor bs).find? (Block.fits want) = some b

theorem empty_request_gets_nothing : ∃ n, Heap.create ⟨64, 256, false⟩ (.ok 4096) = .ok n ∧
    n.heap.faults = .ok [] ∧ n.heap.FirstFit 0 ⟨16, 64, false⟩ ∧ allocate 0 n = .ok none n := by
  have hcheck : ((Heap.create ⟨64, 256, false⟩ (.ok 4096)).map fun n =>
      (n.heap.faults, n.heap.blocks, n.heap.cursor)) =
        .ok (.ok [], .ok [⟨16, 64, false⟩], 8) := by decide +kernel
  cases hcreate : Heap.create ⟨64, 256, false⟩ (.ok 4096) with
  | error why => rw [hcreate] at hcheck; cases hcheck
  | ok n =>
    rw [hcreate] at hcheck
    obtain ⟨hfaults, hrest⟩ := Prod.mk.inj (Except.ok.inj hcheck)
    obtain ⟨hblocks, hcursor⟩ := Prod.mk.inj hrest
    have hfirst : (rotated n.heap.cursor [⟨16, 64, false⟩]).find? (Block.fits 16) =
        some ⟨16, 64, false⟩ := by
      rw [hcursor]
      rfl
    exact ⟨n, rfl, hfaults, ⟨_, 16, hblocks, rfl, hfirst⟩, rfl⟩

/-- Neither a request for nothing, nor one on a heap whose live set does not fit its tags, is given the
block that the search would find. -/
theorem next_fit_withheld :
    (∃ n, Heap.create ⟨64, 256, false⟩ (.ok 4096) = .ok n ∧ n.heap.faults = .ok [] ∧
      n.heap.FirstFit 0 ⟨16, 64, false⟩ ∧ allocate 0 n = .ok none n) ∧
    Client.heapAfter ⟨96, 256, true⟩ 4096 mistracking = .ok mistracked ∧ mistracked.Intact ∧
      mistracked.FirstFit 8 ⟨64, 16, false⟩ ∧
      ∃ n, allocate 8 ⟨mistracked, #[]⟩ = .error (.trapped (.handedOutTwice 64)) n :=
  ⟨empty_request_gets_nothing, mistracked_reached, mistracked_intact,
    ⟨_, 16, mistracked_blocks, rfl, rfl⟩, mistracked_traps⟩

end Heap

end BoundaryTag
