import BoundaryTag.Proofs.Allocating

/-!
# Releasing, reallocating and writing on a sound heap

`release` and `reallocate` of a block in use follow their counterparts on outlines and leave the heap
sound. Where live blocks are tracked, any other position is refused before a byte is changed. A write
into a payload changes bytes of that payload and nothing else.
-/

set_option autoImplicit false

namespace BoundaryTag

open HeapM

def giveBack (bp : Nat) : HeapM Unit := do
  let tag ← look (·.tagAt bp)
  edit (writeTags bp ⟨tag.size, false⟩)
  record (.released bp tag.size)
  discard (merge bp)

theorem release_eq (bp : Nat) :
    release bp = track (·.erase bp "free") >>= fun _ => giveBack bp := rfl

namespace Heap

variable {h : Heap} {o : Outline} {b : Block} {bp size : Nat}

theorem unmark_run (hd : h.Depicts o) (hl : o.Laid) (hb : b ∈ o.blocks) (htop : o.top ≤ maxBlock)
    {ks : List Block} (hks : ∀ c ∈ ks, c ∈ o.blocks ∧ c ≠ b) :
    ∃ r, writeTags b.bp ⟨b.size, false⟩ h.region = .ok () r ∧
      (h.withRegion r).Depicts (o.unmark b.bp) ∧ h.Keeps (h.withRegion r) ks := by
  obtain ⟨hlow, hstop, hsize⟩ := hl.bounds hb
  obtain ⟨xs, ys, hsplit, hrecut⟩ := hl.split hb
  have hrsize := hd.region.size
  have hbstop : b.stop = b.bp + b.size := rfl
  have habut := hl.abut
  rw [hsplit] at habut
  obtain ⟨hxs, hys⟩ := abut_middle.1 habut
  have hwrite : writeTags b.bp ⟨b.size, false⟩ h.region = .ok () (h.region.retag b.freed) :=
    Region.writeTags_eq (by omega) hsize (by omega) (by omega)
  have hfstop : b.freed.stop = b.stop := rfl
  have hfbp : b.freed.bp = b.bp := rfl
  have hfsize : b.freed.size = b.size := rfl
  have hwithin := Region.within_retag (r := h.region) (b := b.freed) (by omega) (by omega) (by omega)
  have htag := Region.tagged_retag (r := h.region) (b := b.freed) (by omega) hsize (by omega)
    (by omega)
  rw [hfstop, hfbp] at hwithin
  have hold : o.blocks = xs ++ ([b] ++ ys) := hsplit
  have hnew : (o.unmark b.bp).blocks = xs ++ ([b.freed] ++ ys) := by
    exact Outline.unmark_blocks hrecut
  have hshows : (h.region.retag b.freed).Shows (o.unmark b.bp) := by
    apply hd.region.splice hl hold hnew rfl hxs hys hwithin
    intro c hc
    rwa [List.mem_singleton.1 hc]
  have hspares := hwithin.spares hl.abut hb hks
  have hsealed := hwithin.sealed (by omega) (by omega)
  exact ⟨_, hwrite, depicts_withRegion hshows hd.cursor, keeps_withRegion hspares hsealed⟩

theorem giveBack_run (hd : h.Depicts o) (hv : o.Valid) (htop : o.top ≤ maxBlock)
    (hbp : bp ∈ o.held) (j : Array Event) :
    ∃ h' j', giveBack bp ⟨h, j⟩ = .ok () ⟨h', j'⟩ ∧ h'.Depicts (o.release bp) ∧
      h.Keeps h' (o.release bp).inUse ∧ h'.live = h.live := by
  obtain ⟨b, hb, -, rfl⟩ := Outline.mem_held.1 hbp
  have hl := hv.toLaid
  have hks : ∀ c ∈ (o.release b.bp).inUse, c ∈ o.blocks ∧ c ≠ b := by
    intro c hc
    obtain ⟨hc, hne⟩ := Outline.mem_release_inUse.1 hc
    exact ⟨(Outline.mem_inUse.1 hc).1, fun heq => hne (congrArg Block.bp heq)⟩
  obtain ⟨r, hwrite, hd₁, hk₁⟩ := unmark_run hd hl hb htop hks
  obtain ⟨xs, ys, hsplit, hrecut⟩ := hl.split hb
  have hap := hv.apart
  rw [hsplit] at hap
  obtain ⟨hxs, hbys, -⟩ := List.isChain_append.1 hap
  have hblocks := Outline.unmark_blocks hrecut
  obtain ⟨c, h₂, hmerge, -, hd₂, hk₂, hlive₂⟩ := merge_run hd₁ (Outline.unmark_laid hl hb) hblocks
    rfl hxs (List.isChain_cons.1 hbys).2 htop (j.push (.released b.bp b.size))
  have hinUse : (o.unmark b.bp).inUse = (o.release b.bp).inUse := Outline.merge_inUse.symm
  rw [hinUse] at hk₂
  refine ⟨h₂, j.push (.released b.bp b.size), ?_, hd₂, hk₁.trans hk₂, hlive₂⟩
  rw [giveBack, bind_ok (look_run (hd.tagAt hl hb) j)]
  simp only [Block.tag]
  rw [bind_ok (edit_run hwrite j), bind_ok (record_run _ _ _)]
  exact discard_ok hmerge

theorem release_depicts (hd : h.Depicts o) (hv : o.Valid) (htop : o.top ≤ maxBlock)
    (hbp : bp ∈ o.held) (hlive : ∀ live, h.live = some live → bp ∈ live) (j : Array Event) :
    ∃ h' j', BoundaryTag.release bp ⟨h, j⟩ = .ok () ⟨h', j'⟩ ∧ h'.Depicts (o.release bp) ∧
      h.Keeps h' (o.release bp).inUse ∧ ∀ live', h'.live = some live' →
        ∃ live, h.live = some live ∧ live.erase bp "free" = .ok live' := by
  -- The live set has to have the block; what else it has is not looked at again.
  obtain ⟨tracked, htrack, htracked, hmem⟩ := track_run (h := h) (f := (·.erase bp "free"))
    (fun live hl => LiveBlocks.erase_of_mem "free" (hlive live hl)) j
  obtain ⟨h₁, hh₁⟩ : ∃ h₁ : Heap, h₁ = { h with live := tracked } := ⟨_, rfl⟩
  have hd₁ : h₁.Depicts o := hh₁ ▸ ⟨hd.region, hd.cursor⟩
  have hk₁ : h.Keeps h₁ (o.release bp).inUse :=
    hh₁ ▸ ⟨rfl, rfl, rfl, htracked, fun _ _ _ _ _ => rfl, id⟩
  obtain ⟨h₂, j₂, hrun, hd₂, hk₂, hlive₂⟩ := giveBack_run hd₁ hv htop hbp j
  have htracks : h₂.live = tracked := hlive₂.trans (hh₁ ▸ rfl)
  refine ⟨h₂, j₂, by rw [release_eq, bind_ok htrack, ← hh₁, hrun], hd₂, hk₁.trans hk₂, ?_⟩
  intro live' hl
  exact hmem live' (htracks ▸ hl)

theorem release_run (hs : h.Sound o) (hbp : bp ∈ o.held) (j : Array Event) :
    ∃ h' j', BoundaryTag.release bp ⟨h, j⟩ = .ok () ⟨h', j'⟩ ∧ h'.Sound (o.release bp) ∧
      h.Keeps h' (o.release bp).inUse := by
  obtain ⟨b, hb, -, rfl⟩ := Outline.mem_held.1 hbp
  obtain ⟨h', j', hrun, hd', hk, hmem⟩ := release_depicts hs.depicts hs.valid hs.top_le hbp
    (fun live hl => (hs.tracks live hl b.bp).2 hbp) j
  have hsound : h'.Sound (o.release b.bp) := by
    apply hs.step hk hd' (Outline.release_valid hs.valid.toLaid hb) hs.room
    intro live' hl x
    obtain ⟨live, hold, herase⟩ := hmem live' hl
    rw [LiveBlocks.mem_of_erase herase, hs.tracks live hold]
    exact Outline.mem_release_held.symm
  exact ⟨h', j', hrun, hsound, hk⟩

theorem release_foreign {live : LiveBlocks} (hs : h.Sound o) (hlive : h.live = some live)
    (hbp : bp ∉ o.held) (j : Array Event) :
    BoundaryTag.release bp ⟨h, j⟩ = .error (.trapped (.notLive "free" bp)) ⟨h, j⟩ := by
  have hout : bp ∉ live := fun hin => hbp ((hs.tracks live hlive bp).1 hin)
  have herase := LiveBlocks.erase_of_not_mem "free" hout
  rw [BoundaryTag.release, bind_error (track_error hlive herase j)]

theorem Depicts.payloadSize (hd : h.Depicts o) (hl : o.Laid) (hb : b ∈ o.blocks) :
    h.payloadSize b.bp = .ok (b.size - 8) := by
  have hsize := (hl.bounds hb).2.2.1
  have hminus : minus b.tag.size unitBytes = .ok (b.size - 8) := minus_of_le hsize
  rw [Heap.payloadSize, hd.tagAt hl hb]
  exact hminus

theorem Depicts.payload (hd : h.Depicts o) (hl : o.Laid) (hb : b ∈ o.blocks) :
    h.payload b.bp = .ok (h.region.bytes.extract b.bp (b.bp + (b.size - 8))) := by
  have hstop := (hl.bounds hb).2.1
  have hrsize := hd.region.size
  simp only [Block.stop] at hstop
  rw [Heap.payload, hd.payloadSize hl hb]
  exact if_pos (by omega)

theorem Depicts.size_payload (hd : h.Depicts o) (hl : o.Laid) (hb : b ∈ o.blocks) :
    (h.region.bytes.extract b.bp (b.bp + (b.size - 8))).size = b.size - 8 := by
  have hstop := (hl.bounds hb).2.1
  have hrsize := hd.region.size
  simp only [Block.stop] at hstop
  simp only [Region.size] at hrsize
  rw [ByteArray.size_extract]
  omega

theorem Keeps.payload_of_depicts {h' : Heap} {o' : Outline} {ks : List Block} (hk : h.Keeps h' ks)
    (hd : h.Depicts o) (hl : o.Laid) (hd' : h'.Depicts o') (hl' : o'.Laid) (hks : b ∈ ks)
    (hb : b ∈ o.blocks) (hb' : b ∈ o'.blocks) : h'.payload b.bp = h.payload b.bp := by
  have hbounds := hl.bounds hb
  have hbounds' := hl'.bounds hb'
  have hsize := hd.region.size
  have hsize' := hd'.region.size
  simp only [Block.stop] at hbounds hbounds'
  rw [hd.payload hl hb, hd'.payload hl' hb']
  congr 1
  apply Region.extract_congr
  · omega
  · omega
  · intro i hi hi'
    exact hk.spares b hks i (by omega) (by simp only [Block.stop]; omega)

theorem Keeps.payload {h' : Heap} {o' : Outline} {ks : List Block} (hk : h.Keeps h' ks)
    (hs : h.Sound o) (hs' : h'.Sound o') (hks : b ∈ ks) (hb : b ∈ o.blocks) (hb' : b ∈ o'.blocks) :
    h'.payload b.bp = h.payload b.bp :=
  hk.payload_of_depicts hs.depicts hs.valid.toLaid hs'.depicts hs'.valid.toLaid hks hb hb'

theorem Sound.inside {r : Region} {ks : List Block} {low high : Nat} (hs : h.Sound o)
    (hb : b ∈ o.blocks) (hw : h.region.Within r low high) (hlow : b.bp ≤ low)
    (hhigh : high ≤ b.stop - 8) (hks : ∀ c ∈ ks, c ∈ o.blocks ∧ c ≠ b) :
    (h.withRegion r).Sound o ∧ h.Keeps (h.withRegion r) ks := by
  have hl := hs.valid.toLaid
  obtain ⟨hbp, hstop, -, -⟩ := hl.bounds hb
  have hrsize := hs.depicts.region.size
  have hspares := (hw.widen (show b.bp - 4 ≤ low by omega) (show high ≤ b.stop - 4 by omega)).spares
    hl.abut hb hks
  have hsealed := hw.sealed (by omega) (by omega)
  have hk := keeps_withRegion hspares hsealed
  have hd := depicts_withRegion (hs.depicts.region.inside hl hb hw hlow hhigh) hs.depicts.cursor
  exact ⟨hs.step hk hd hs.valid hs.room hs.tracks, hk⟩

theorem move_run {r : Region} {source count target : Nat} (hsource : source + count ≤ r.size)
    (htarget : target + count ≤ r.size) :
    ∃ r', Region.move source count target r = .ok () r' ∧ r.Within r' target (target + count) ∧
      ∀ i, i < count → r'.byte (target + i) = r.byte (source + i) := by
  obtain ⟨src, hsrc⟩ : ∃ src, src = r.bytes.extract source (source + count) := ⟨_, rfl⟩
  have hread : r.readBytes source count = .ok src := hsrc ▸ if_pos hsource
  have hsize : src.size = count := by
    simp only [Region.size] at hsource
    rw [hsrc, ByteArray.size_extract]
    omega
  have hfit : target + src.size ≤ r.size := by omega
  have hwithin := Region.within_blit hfit
  rw [hsize] at hwithin
  refine ⟨r.blit target src, ?_, hwithin, fun i hi => ?_⟩
  · simp only [Region.move, hread]
    exact if_pos hfit
  · rw [Region.byte_blit _ hfit, if_pos (by omega), Nat.add_sub_cancel_left, hsrc]
    exact Region.byte_extract (by omega)

theorem writePayload_run {start : Nat} {data : ByteArray} {ks : List Block} (hs : h.Sound o)
    (hb : b ∈ o.blocks) (hfit : start + data.size ≤ b.size - 8)
    (hks : ∀ c ∈ ks, c ∈ o.blocks ∧ c ≠ b) (j : Array Event) :
    ∃ h', writePayload b.bp start data ⟨h, j⟩ = .ok () ⟨h', j⟩ ∧ h'.Sound o ∧ h.Keeps h' ks ∧
      h'.region = h.region.blit (b.bp + start) data := by
  have hl := hs.valid.toLaid
  obtain ⟨hbp, hstop, hbsize, -⟩ := hl.bounds hb
  have hrsize := hs.depicts.region.size
  have hbstop : b.stop = b.bp + b.size := rfl
  have hpayload := hs.depicts.payload hl hb
  have hsize := hs.depicts.size_payload hl hb
  have hroom : b.bp + start + data.size ≤ h.region.size := by omega
  have hwrite : Region.writeBytes (b.bp + start) data h.region =
      .ok () (h.region.blit (b.bp + start) data) := if_pos hroom
  have hwithin := Region.within_blit hroom
  obtain ⟨hsound, hk⟩ := hs.inside hb hwithin (by omega) (by omega) hks
  refine ⟨_, ?_, hsound, hk, region_withRegion _ _⟩
  rw [writePayload, bind_ok (query_run hpayload j), hsize, if_pos hfit, edit_run hwrite]

theorem requireLive_run (hs : h.Sound o) (hbp : bp ∈ o.held) (action : String) (j : Array Event) :
    requireLive bp action ⟨h, j⟩ = .ok () ⟨h, j⟩ := by
  apply query_run
  cases hlive : h.live with
  | none => rfl
  | some live => exact LiveBlocks.require_of_mem action ((hs.tracks live hlive bp).2 hbp)

theorem reallocate_foreign {live : LiveBlocks} (hs : h.Sound o) (hlive : h.live = some live)
    (hbp : bp ∉ o.held) (size : Nat) (j : Array Event) :
    BoundaryTag.reallocate bp size ⟨h, j⟩ = .error (.trapped (.notLive "realloc" bp)) ⟨h, j⟩ := by
  have hout : bp ∉ live := fun hin => hbp ((hs.tracks live hlive bp).1 hin)
  have hrequire : requireLive bp "realloc" ⟨h, j⟩ =
      .error (.trapped (.notLive "realloc" bp)) ⟨h, j⟩ := by
    simp only [requireLive, query, hlive, LiveBlocks.require_of_not_mem "realloc" hout]
  rw [BoundaryTag.reallocate, bind_error hrequire]

theorem reallocate_moves {a c : Block} {o₁ : Outline} {h₁ : Heap} {j j₁ : Array Event}
    (hs : h.Sound o) (ha : a ∈ o.inUse) (hsize : 0 < size)
    (hallocate : BoundaryTag.allocate size ⟨h, j⟩ = .ok (some c.bp) ⟨h₁, j₁⟩)
    (hg : o.Granted h.settings size c o₁) (hs₁ : h₁.Sound o₁) (hk₁ : h.Keeps h₁ o.inUse) :
    ∃ h' j', BoundaryTag.reallocate a.bp size ⟨h, j⟩ = .ok c.bp ⟨h', j'⟩ ∧
      h'.Sound (o₁.release a.bp) ∧ h.Keeps h' (o.release a.bp).inUse ∧
      ∀ i, i < min size (a.size - 8) → h'.region.byte (c.bp + i) = h.region.byte (a.bp + i) := by
  have hbp : a.bp ∈ o.held := List.mem_map_of_mem ha
  have ha₁ := (Outline.mem_inUse.1 (hg.old ha)).1
  have hc₁ := (Outline.mem_inUse.1 hg.mem).1
  have hl₁ := hs₁.valid.toLaid
  have habounds := hl₁.bounds ha₁
  have hcbounds := hl₁.bounds hc₁
  have hlarge := hg.large
  have hrsize := hs₁.depicts.region.size
  simp only [Block.stop] at habounds hcbounds
  have hsource : a.bp + min size (a.size - 8) ≤ h₁.region.size := by omega
  have htarget : c.bp + min size (a.size - 8) ≤ h₁.region.size := by omega
  obtain ⟨r, hmove, hwithin, hcopy⟩ := move_run hsource htarget
  have hothers : ∀ x ∈ o.inUse, x ∈ o₁.blocks ∧ x ≠ c := by
    intro x hx
    exact ⟨(Outline.mem_inUse.1 (hg.old hx)).1, fun heq => hg.ne_old hx (congrArg Block.bp heq)⟩
  obtain ⟨hs₂, hk₂⟩ := hs₁.inside hc₁ hwithin (Nat.le_refl _) (by simp only [Block.stop]; omega)
    hothers
  obtain ⟨h₃, j₃, hrelease, hs₃, hk₃⟩ :=
    release_run hs₂ (List.mem_map_of_mem (hg.old ha) : a.bp ∈ o₁.held) j₁
  have hkeep : h.Keeps h₃ (o.release a.bp).inUse := by
    have hold : ∀ x ∈ (o.release a.bp).inUse, x ∈ o.inUse := fun x hx =>
      (Outline.mem_release_inUse.1 hx).1
    exact (hk₁.mono hold).trans ((hk₂.mono hold).trans (hk₃.mono fun x hx => hg.old_release hx))
  refine ⟨h₃, j₃.push (.reallocated a.bp size c.bp), ?_, hs₃, hkeep, ?_⟩
  · rw [BoundaryTag.reallocate, bind_ok (requireLive_run hs hbp "realloc" j),
      if_neg (Nat.ne_of_gt hsize)]
    show (BoundaryTag.allocate size >>= _) ⟨h, j⟩ = _
    rw [bind_ok hallocate]
    show (query (·.payloadSize a.bp) >>= _) ⟨h₁, j₁⟩ = _
    rw [bind_ok (query_run (hs₁.depicts.payloadSize hl₁ ha₁) j₁), bind_ok (edit_run hmove j₁),
      bind_ok hrelease, bind_ok (record_run _ _ _)]
    rfl
  · intro i hi
    have hc := hg.mem_release hbp
    have hlast : h₃.region.byte (c.bp + i) = r.byte (c.bp + i) :=
      hk₃.spares c hc _ (by omega) (by simp only [Block.stop]; omega)
    have hfirst : h₁.region.byte (a.bp + i) = h.region.byte (a.bp + i) :=
      hk₁.spares a ha _ (by omega) (by simp only [Block.stop]; omega)
    rw [hlast, hcopy i hi, hfirst]

theorem reallocate_empty (hs : h.Sound o) (hbp : bp ∈ o.held) (j : Array Event) :
    BoundaryTag.reallocate bp 0 ⟨h, j⟩ = .error (.refused .zeroSize) ⟨h, j⟩ := by
  rw [BoundaryTag.reallocate, bind_ok (requireLive_run hs hbp "realloc" j), if_pos rfl]
  rfl

theorem reallocate_full {j j' : Array Event} (hs : h.Sound o) (hbp : bp ∈ o.held) (hsize : 0 < size)
    (hnone : BoundaryTag.allocate size ⟨h, j⟩ = .ok none ⟨h, j'⟩) :
    BoundaryTag.reallocate bp size ⟨h, j⟩ =
      .error (.refused (.outOfMemory size (h.settings.limit - h.size))) ⟨h, j'⟩ := by
  have havailable : h.arena.available = h.settings.limit - h.size := by
    rw [← hs.capacity]
    rfl
  rw [BoundaryTag.reallocate, bind_ok (requireLive_run hs hbp "realloc" j),
    if_neg (Nat.ne_of_gt hsize), ← havailable]
  show (BoundaryTag.allocate size >>= _) ⟨h, j⟩ = _
  rw [bind_ok hnone]
  rfl

/-- On a sound heap `reallocate` of a block in use never traps: it is refused and leaves the heap as
it was, or the block has moved. -/
theorem reallocate_run (hs : h.Sound o) (hbp : bp ∈ o.held) (size : Nat) (j : Array Event) :
    (∃ why j', BoundaryTag.reallocate bp size ⟨h, j⟩ = .error (.refused why) ⟨h, j'⟩ ∧
      o.reallocate h.settings bp size = (.error why, o)) ∨
    ∃ c o₁ h' j', BoundaryTag.reallocate bp size ⟨h, j⟩ = .ok c.bp ⟨h', j'⟩ ∧
      o.reallocate h.settings bp size = (.ok c.bp, o₁.release bp) ∧
      o.Granted h.settings size c o₁ ∧ h'.Sound (o₁.release bp) ∧
      h.Keeps h' (o.release bp).inUse ∧ ∀ a ∈ o.inUse, a.bp = bp → ∀ i, i < min size (a.size - 8) →
        h'.region.byte (c.bp + i) = h.region.byte (bp + i) := by
  by_cases hzero : size = 0
  · subst hzero
    exact .inl ⟨.zeroSize, j, reallocate_empty hs hbp j, rfl⟩
  · have hpos := Nat.pos_of_ne_zero hzero
    rcases allocate_run hs size j with
      ⟨j', hrun, ho⟩ | ⟨c, o₁, h₁, j₁, hrun, ho, hg, hs₁, hk₁⟩
    · left
      refine ⟨_, j', reallocate_full hs hbp hpos hrun, ?_⟩
      simp only [Outline.reallocate, if_neg hzero, ho, hs.depicts.size]
    · right
      obtain ⟨a, ha, rfl⟩ := List.mem_map.1 hbp
      obtain ⟨h', j', hmoved, hs', hk, hcopy⟩ := reallocate_moves hs ha hpos hrun hg hs₁ hk₁
      refine ⟨c, o₁, h', j', hmoved, ?_, hg, hs', hk, ?_⟩
      · simp only [Outline.reallocate, if_neg hzero, ho]
      · intro a' ha' heq i hi
        have haa : a' = a := hs.valid.abut.eq_of_bp hs.valid.sized (Outline.mem_inUse.1 ha').1
          (Outline.mem_inUse.1 ha).1 heq
        exact hcopy i (haa ▸ hi)

end Heap

end BoundaryTag
