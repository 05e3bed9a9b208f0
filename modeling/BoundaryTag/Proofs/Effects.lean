import BoundaryTag.Proofs.Noninterference
import BoundaryTag.Proofs.RoundTrip
import BoundaryTag.Proofs.Serving

/-!
# What one call changes

On a heap that the checker accepts, an allocation replaces one free block of the list by the one or two
that it is carved into, and a release replaces the block and its free neighbours by one free block. All
else stays: the other blocks, their payloads, and the cursor where it is not inside what has been
joined. The live set need not name the blocks in use.
-/

set_option autoImplicit false

namespace BoundaryTag

theorem Block.share_bounds {b : Block} {want : Nat} (hb : b.size % 8 = 0) (hw : want % 8 = 0)
    (hle : want ≤ b.size) : want ≤ b.share want ∧ b.share want ≤ want + 8 := by
  simp only [Block.share, minBlock]
  split <;> omega

theorem usable_bounds {size want : Nat} {b : Block} (hpos : 1 ≤ size)
    (hwant : blockSizeFor size = some want) (hb : b.size % 8 = 0) (hle : want ≤ b.size) :
    size ≤ b.share want - 8 ∧ b.share want - 8 ≤ size + 15 := by
  have hexact := leastBlock_iff.1 (blockSizeFor_eq_some_iff.1 hwant).2
  have hshare := Block.share_bounds hb (by omega) hle
  omega

namespace Outline

variable {o m : Outline} {s : Settings} {b : Block} {want : Nat}

theorem supply_blocks (hs : s.Accepted) (hv : o.Valid)
    (hw : 16 ≤ want ∧ want % 8 = 0 ∧ want ≤ maxBlock) (h : o.supply s want = some (b, m)) :
    m.blocks = if m.top = o.top then o.blocks else enlarge o.top (m.top - o.top) o.blocks := by
  obtain ⟨hlow, hmod, -⟩ := growth_bounds hs hw
  rcases supply_cases h with ⟨-, rfl⟩ | ⟨-, -, -, rfl⟩
  · rw [if_pos rfl]
  · rw [extend_top, if_neg (by omega), Nat.add_sub_cancel_left]
    exact extend_eq_enlarge hv ⟨hlow, hmod⟩

end Outline

namespace Heap

variable {h : Heap} {o : Outline}

/-- A request for `size` bytes has been answered with the block at `bp`, by which the heap `h` has become
`h'`: a block of at least `want` bytes has been carved, after growing where the heap has grown. -/
structure Carved (h h' : Heap) (bs : List Block) (size want bp : Nat) : Prop where
  adjusted : blockSizeFor size = some want
  replaced : ∃ xs b ys,
    (if h'.size = h.size then bs else enlarge h.size (h'.size - h.size) bs) = xs ++ b :: ys ∧
      b.bp = bp ∧ b.allocated = false ∧ want ≤ b.size ∧ h'.blocks = .ok (xs ++ b.carved want ++ ys)
  usable : ∃ bytes, h'.payload bp = .ok bytes ∧ h'.payloadSize bp = .ok bytes.size ∧
    size ≤ bytes.size ∧ bytes.size ≤ size + 15

theorem carved_of_supply {h' : Heap} {m : Outline} {b : Block} {size want : Nat}
    (hs : h.settings.Accepted) (hv : o.Valid) (hd : h.Depicts o) (hroom : o.top ≤ h.settings.limit)
    (hpos : 1 ≤ size) (hwant : blockSizeFor size = some want)
    (hsupply : o.supply h.settings want = some (b, m)) (hd' : h'.Depicts (m.occupy b want)) :
    h.Carved h' o.blocks size want b.bp := by
  obtain ⟨hw, hw8, hwmax, -⟩ := bounds_of_blockSizeFor hwant
  have hm := Outline.supplied hs hv hroom ⟨hw, hw8, hwmax⟩ hsupply
  have hl' := (Outline.occupy_valid hm.valid hm.mem hm.free ⟨hw, hw8⟩ hm.large).toLaid
  obtain ⟨xs, ys, hsplit, hrecut⟩ := hm.valid.split hm.mem
  constructor
  case adjusted => exact hwant
  case replaced =>
    refine ⟨xs, b, ys, ?_, rfl, hm.free, hm.large, ?_⟩
    · rw [hd.size, show h'.size = m.top from hd'.size, ← hsplit]
      exact (Outline.supply_blocks hs hv ⟨hw, hw8, hwmax⟩ hsupply).symm
    · rw [hd'.blocks hl', Outline.occupy_blocks want hrecut, List.append_assoc]
  case usable =>
    have hmem : (⟨b.bp, b.share want, true⟩ : Block) ∈ (m.occupy b want).blocks := by
      rw [Outline.occupy_blocks want hrecut]
      simp [share_mem_carved]
    have hread := hd'.payload hl' hmem
    have hlength := hd'.size_payload hl' hmem
    have husable := hd'.payloadSize hl' hmem
    rw [← hlength] at husable
    refine ⟨_, hread, husable, ?_⟩
    rw [hlength]
    exact usable_bounds hpos hwant (hm.valid.bounds hm.mem).2.2.2 hm.large

/-- Whatever the heap that the checker accepts and whatever its live set, an allocation that hands out a
block changes one entry of the list, and the block has room for the request and at most fifteen bytes
more. -/
theorem allocation_carves (hi : h.Intact) {size bp : Nat} {j : Array Event} {n : Session}
    (hrun : allocate size ⟨h, j⟩ = .ok (some bp) n) :
    ∃ bs want, h.blocks = .ok bs ∧ h.Carved n.heap bs size want bp := by
  obtain ⟨k, hk⟩ := hi.follows
  obtain ⟨k', hsketch, hk'⟩ := (allocate_agrees hk size j).ok hrun
  have ho := Sketch.allocate_outline hsketch
  have hl := hk.sound.valid.toLaid
  rcases Outline.allocate_cases k.settings size k.outline with
    hnone | ⟨want, b, m, hpos, hwant, hsupply, hsome⟩
  · rw [hnone] at ho
    cases ho
  · rw [hsome] at ho
    obtain ⟨hbp, hm⟩ := Prod.mk.inj ho
    obtain rfl := Option.some.inj hbp
    rw [← hk.settings] at hsupply
    refine ⟨k.outline.blocks, want, hk.depicts.blocks hl, ?_⟩
    exact carved_of_supply hk.sound.accepted hk.sound.valid hk.depicts hk.sound.room hpos hwant hsupply
      (hm ▸ hk'.depicts)

theorem checkered_allocation_carves : checkered.Intact ∧
    ∃ n bs want, allocate 40 ⟨checkered, #[]⟩ = .ok (some 96) n ∧
      checkered.blocks = .ok bs ∧ checkered.Carved n.heap bs 40 want 96 := by
  -- The request does not fit below the top: the heap grows, the new bytes join the last block,
  -- and of the joined block sixteen bytes are left.
  have hi := checkered_certified.toIntact
  have hfound : (outcome (allocate 40 ⟨checkered, #[]⟩)).1 = .ok (some 96) := by decide +kernel
  obtain ⟨n, hrun⟩ := ok_of_outcome hfound
  obtain ⟨bs, want, hblocks, hcarved⟩ := allocation_carves hi hrun
  exact ⟨hi, n, bs, want, hrun, hblocks, hcarved⟩

end Heap

namespace Outline

variable {o : Outline} {before after : List Block} {b : Block}

theorem release_around (hv : o.Valid) (hsplit : o.blocks = before ++ b :: after) :
    ∃ xs ys f, before = xs ++ lastFree before ∧ after = firstFree after ++ ys ∧
      f.allocated = false ∧ Abut f.bp (lastFree before ++ b :: firstFree after) f.stop ∧
        (o.release b.bp).blocks = xs ++ f :: ys ∧
          (o.release b.bp).cursor =
            if f.bp < o.cursor ∧ o.cursor < f.stop then f.bp else o.cursor := by
  have habut := hv.abut
  have hsized := hv.sized
  have hap := hv.apart
  rw [hsplit] at habut hsized hap
  have hblocks : (o.unmark b.bp).blocks = before ++ b.freed :: after :=
    unmark_blocks fun f => by rw [hsplit, recut_middle habut hsized]
  have hl := unmark_laid hv.toLaid (show b ∈ o.blocks by simp [hsplit])
  have hunmarked := hl.abut
  rw [hblocks] at hunmarked
  obtain ⟨hbefore, hbafter, -⟩ := List.isChain_append.1 hap
  obtain ⟨xs, ys, f, hxs, hys, hfree, hspan, hjoin⟩ :=
    joinFree_around hunmarked rfl hbefore (apart_cons.1 hbafter).2
  have hmerge : joinFree (o.unmark b.bp).blocks = xs ++ f :: ys := by rw [hblocks, hjoin]
  obtain ⟨hlow, hhigh⟩ := abut_middle.1 hspan
  refine ⟨xs, ys, f, hxs, hys, hfree, abut_middle.2 ⟨hlow, hhigh⟩, hmerge, ?_⟩
  exact cursor_of_merge_blocks hl (hblocks.trans (regroup_around hxs hys)) hmerge

end Outline

theorem freeSum_united {before after xs ys : List Block} {b f : Block}
    (hbefore : before = xs ++ lastFree before) (hafter : after = firstFree after ++ ys)
    (halloc : b.allocated = true) (hfree : f.allocated = false)
    (hspan : Abut f.bp (lastFree before ++ b :: firstFree after) f.stop) :
    freeSum (xs ++ f :: ys) = freeSum (before ++ b :: after) + b.size := by
  have hleft := congrArg freeSum hbefore
  have hright := congrArg freeSum hafter
  have htotal := hspan.total
  rw [freeSum_append, freeSum_of_free fun c hc => free_of_mem_lastFree hc] at hleft
  rw [freeSum_append, freeSum_of_free fun c hc => free_of_mem_firstFree hc] at hright
  simp only [Block.stop, List.map_append, List.map_cons, List.sum_append, List.sum_cons] at htotal
  simp only [freeSum_append, freeSum_cons, halloc, hfree, if_true, Bool.false_eq_true, if_false]
  omega

namespace Heap

variable {h : Heap} {before after : List Block} {b : Block}

/-- The block `b`, which stood between `before` and `after`, has been released, by which the heap `h` has
become `h'`: the free block `f` is in its place and in that of its free neighbours. -/
structure United (h h' : Heap) (before : List Block) (b : Block) (after : List Block) (f : Block) :
    Prop where
  free : f.allocated = false
  spans : Abut f.bp (lastFree before ++ b :: firstFree after) f.stop
  replaced : ∃ xs ys, before = xs ++ lastFree before ∧ after = firstFree after ++ ys ∧
    h'.blocks = .ok (xs ++ f :: ys) ∧ Apart (xs ++ f :: ys)
  freeBytes : h.freeBytes = .ok (freeSum (before ++ b :: after)) ∧
    h'.freeBytes = .ok (freeSum (before ++ b :: after) + b.size)
  cursor : h'.cursor = if f.bp < h.cursor ∧ h.cursor < f.stop then f.bp else h.cursor
  size : h'.size = h.size
  payloads : ∀ c ∈ before ++ after, c.allocated = true → ∃ bytes, h.payload c.bp = .ok bytes ∧
    h'.payload c.bp = .ok bytes

/-- On a heap that the checker accepts, every block listed as allocated, and live where live blocks are
tracked, can be released and is then one free block with the free blocks next to it. A heap is never
larger than the limit of its settings, which a tag word can hold. -/
theorem release_unites (hf : h.faults = .ok []) (hmax : h.size ≤ maxBlock)
    (hblocks : h.blocks = .ok (before ++ b :: after)) (halloc : b.allocated = true)
    (hlive : ∀ live, h.live = some live → b.bp ∈ live) (j : Array Event) :
    ∃ n f, release b.bp ⟨h, j⟩ = .ok () n ∧ h.United n.heap before b after f := by
  obtain ⟨o, hd, hv, -, -⟩ := depicts_of_faultless hf
  have hl := hv.toLaid
  have hsplit : o.blocks = before ++ b :: after := by
    rw [hd.blocks hl] at hblocks
    exact Except.ok.inj hblocks
  have hb : b ∈ o.blocks := by simp [hsplit]
  have hheld : b.bp ∈ o.held := Outline.mem_held.2 ⟨b, hb, halloc, rfl⟩
  obtain ⟨h', j', hrun, hd', hk, -⟩ :=
    release_depicts hd hv (hd.size ▸ hmax) hheld hlive j
  have hv' : (o.release b.bp).Valid := Outline.release_valid hl hb
  obtain ⟨xs, ys, f, hxs, hys, hfree, hspan, hnew, hcursor⟩ := Outline.release_around hv hsplit
  have hblocks' := hd'.blocks hv'.toLaid
  have hap' := hv'.apart
  rw [hnew] at hblocks' hap'
  refine ⟨⟨h', j'⟩, f, hrun, ?_⟩
  constructor
  case free => exact hfree
  case spans => exact hspan
  case replaced => exact ⟨xs, ys, hxs, hys, hblocks', hap'⟩
  case freeBytes =>
    refine ⟨freeBytes_of_blocks hblocks, ?_⟩
    rw [freeBytes_of_blocks hblocks', freeSum_united hxs hys halloc hfree hspan]
  case cursor => rw [hd'.cursor, hd.cursor, hcursor]
  case size => rw [hd.size, hd'.size, Outline.release_top]
  case payloads =>
    intro c hc hcalloc
    have habut := hv.abut
    have hsized := hv.sized
    rw [hsplit] at habut hsized
    obtain ⟨hbefore, hafter⟩ := habut.ne_middle hsized
    have hne : c.bp ≠ b.bp := (List.mem_append.1 hc).elim (hbefore c) (hafter c)
    have hmem : c ∈ o.blocks := by
      rw [hsplit]
      rcases List.mem_append.1 hc with hc | hc
      · exact List.mem_append_left _ hc
      · exact List.mem_append_right _ (List.mem_cons_of_mem _ hc)
    have hkept : c ∈ (o.release b.bp).inUse :=
      Outline.mem_release_inUse.2 ⟨Outline.mem_inUse.2 ⟨hmem, hcalloc⟩, hne⟩
    have hsame := hk.payload_of_depicts hd hl hd' hv'.toLaid hkept hmem
      (Outline.mem_inUse.1 hkept).1
    have hread := hd.payload hl hmem
    exact ⟨_, hread, by rw [hsame, hread]⟩

theorem checkered_release_unites : ∃ n f, release 48 ⟨checkered, #[]⟩ = .ok () n ∧
    checkered.United n.heap [⟨16, 32, false⟩] ⟨48, 16, true⟩
      [⟨64, 16, false⟩, ⟨80, 16, true⟩, ⟨96, 16, false⟩] f := by
  -- A block between two free ones, with the cursor at the right one.
  have hlive : ∀ live, checkered.live = some live → 48 ∈ live := by
    intro live hl
    obtain rfl := Option.some.inj hl
    exact List.mem_cons_self
  have hmax : checkered.size ≤ maxBlock := by decide +kernel
  have hsplit : checkered.blocks = .ok ([⟨16, 32, false⟩] ++ ⟨48, 16, true⟩ ::
      [⟨64, 16, false⟩, ⟨80, 16, true⟩, ⟨96, 16, false⟩]) := checkered_blocks
  exact release_unites checkered_certified.faultless hmax hsplit rfl hlive #[]

end Heap

end BoundaryTag
