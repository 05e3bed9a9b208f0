import BoundaryTag.Proofs.Carving

/-!
# Merging on a depicted outline

`merge` reads the tags on both sides of a free block and writes at most one pair of tags. On an outline
whose only free neighbours are that block's, this is `Outline.merge`.
-/

set_option autoImplicit false

namespace BoundaryTag

open HeapM

def Tag.freeSize (t : Tag) : Nat := if t.allocated then 0 else t.size

theorem Tag.freeSize_of_allocated {t : Tag} (h : t.allocated = true) : t.freeSize = 0 := if_pos h

theorem Block.freeSize_tag {b : Block} (h : b.allocated = false) : b.tag.freeSize = b.size := by
  simp [Tag.freeSize, Block.tag, h]

namespace Outline

def tagBefore (xs : List Block) : Tag := ((prologue :: xs).getLast (List.cons_ne_nil _ _)).tag

def tagAfter : List Block → Tag
  | [] => ⟨0, true⟩
  | c :: _ => c.tag

/-- The blocks at one end of a list that are joined with a free block there: one, if the tag `t` that
stands there is that of a free block, and none otherwise. -/
structure Loose (mid : List Block) (t : Tag) : Prop where
  free : ∀ d ∈ mid, d.allocated = false
  size : (mid.map Block.size).sum = t.freeSize
  owner : t.allocated = false → ∃ l, mid = [l] ∧ l.tag = t

theorem loose_nil {t : Tag} (h : t.allocated = true) : Loose [] t := by
  refine ⟨fun d hd => absurd hd List.not_mem_nil, (Tag.freeSize_of_allocated h).symm, fun ht => ?_⟩
  rw [h] at ht
  cases ht

theorem loose_singleton {l : Block} (h : l.allocated = false) : Loose [l] l.tag := by
  refine ⟨fun d hd => ?_, ?_, fun _ => ⟨l, rfl, rfl⟩⟩
  · rwa [List.mem_singleton.1 hd]
  · rw [Block.freeSize_tag h, List.map_singleton, List.sum_singleton]

theorem loose_lastFree (xs : List Block) : Loose (lastFree xs) (tagBefore xs) := by
  rcases List.eq_nil_or_concat xs with rfl | ⟨zs, l, hconcat⟩
  · exact loose_nil rfl
  · rw [List.concat_eq_append] at hconcat
    subst hconcat
    have htag : tagBefore (zs ++ [l]) = l.tag := by simp [tagBefore]
    rw [htag, lastFree_concat]
    cases ha : l.allocated with
    | true => exact loose_nil ha
    | false => exact loose_singleton ha

theorem loose_firstFree (ys : List Block) : Loose (firstFree ys) (tagAfter ys) := by
  cases ys with
  | nil => exact loose_nil rfl
  | cons c ys =>
    rw [firstFree_cons]
    cases ha : c.allocated with
    | true => exact loose_nil ha
    | false => exact loose_singleton ha

/-- `c` is the block that the free block `b` becomes when it is joined with its neighbours. -/
structure Joined (o : Outline) (b c : Block) (before after : Tag) : Prop where
  free : c.allocated = false
  low : c.bp + before.freeSize = b.bp
  size : c.size = before.freeSize + b.size + after.freeSize
  left : before.allocated = false → ∃ l ∈ o.blocks, l.bp = c.bp ∧ l.tag = before
  split : ∃ xs mid ys, o.blocks = xs ++ (mid ++ ys) ∧ o.merge.blocks = xs ++ ([c] ++ ys) ∧
    Abut 16 xs c.bp ∧ Abut c.bp mid c.stop ∧ Abut c.stop ys o.top ∧
      ∀ d ∈ mid, d.allocated = false

theorem joined {o : Outline} {xs ys : List Block} {b : Block} (h : o.Laid)
    (hsplit : o.blocks = xs ++ b :: ys) (hfree : b.allocated = false) (hxs : Apart xs)
    (hys : Apart ys) : ∃ c, o.Joined b c (tagBefore xs) (tagAfter ys) := by
  have habut := h.abut
  rw [hsplit] at habut
  obtain ⟨zs, ws, c, hzs, hws, hcfree, hmid, hjoin⟩ := joinFree_around habut hfree hxs hys
  have hleft := loose_lastFree xs
  have hright := loose_firstFree ys
  have hblocks := hsplit.trans (regroup_around hzs hws)
  have hmerge : joinFree o.blocks = zs ++ ([c] ++ ws) := by
    rw [hsplit]
    exact hjoin
  have hjoined := abut_joinFree h.abut
  rw [hmerge] at hjoined
  obtain ⟨hbelow, habove⟩ := abut_middle.1 hjoined
  obtain ⟨hlow, hhigh⟩ := abut_middle.1 hmid
  have hlowtotal := hlow.total
  have hhightotal := hhigh.total
  rw [hleft.size] at hlowtotal
  rw [hright.size] at hhightotal
  simp only [Block.stop] at hhightotal
  refine ⟨c, hcfree, hlowtotal.symm, by omega, ?_, zs, _, ws, hblocks, hmerge, hbelow, hmid, habove,
    free_around hfree⟩
  intro ht
  obtain ⟨l, hl, htag⟩ := hleft.owner ht
  rw [hl] at hlow hblocks
  exact ⟨l, by simp [hblocks], hlow.1, htag⟩

namespace Joined

variable {o : Outline} {b c : Block} {before after : Tag}

theorem mem_merge (h : o.Joined b c before after) : c ∈ o.merge.blocks := by
  obtain ⟨xs, mid, ys, -, hmerge, -⟩ := h.split
  simp [hmerge]

theorem covers (h : o.Joined b c before after) : c.bp ≤ b.bp ∧ b.stop ≤ c.stop := by
  have hlow := h.low
  have hsize := h.size
  simp only [Block.stop]
  omega

theorem not_joined (h : o.Joined b c before after) : ∀ d ∈ o.inUse, d ∈ o.merge.blocks ∧ d ≠ c := by
  intro d hd
  rw [← merge_inUse] at hd
  obtain ⟨hd, halloc⟩ := mem_inUse.1 hd
  refine ⟨hd, fun hdc => ?_⟩
  rw [hdc, h.free] at halloc
  cases halloc

theorem cursor (h : o.Joined b c before after) (hl : o.Laid) :
    o.merge.cursor = if c.bp < o.cursor ∧ o.cursor < c.stop then c.bp else o.cursor := by
  obtain ⟨xs, mid, ys, hblocks, hmerge, -⟩ := h.split
  exact cursor_of_merge_blocks hl hblocks hmerge

end Joined

theorem release_joins {o : Outline} {b : Block} (h : o.Valid) (hb : b ∈ o.blocks) :
    ∃ c ∈ (o.release b.bp).blocks, c.allocated = false ∧ c.bp ≤ b.bp ∧ b.stop ≤ c.stop := by
  obtain ⟨xs, ys, hsplit, hrecut⟩ := h.split hb
  have hap := h.apart
  rw [hsplit] at hap
  obtain ⟨hxs, hbys, -⟩ := List.isChain_append.1 hap
  obtain ⟨c, hc⟩ :=
    joined (unmark_laid h.toLaid hb) (unmark_blocks hrecut) rfl hxs (List.isChain_cons.1 hbys).2
  exact ⟨c, hc.mem_merge, hc.free, hc.covers⟩

end Outline

def settle (start : Nat) : HeapM Nat := do
  let stop ← look (·.next start)
  let cursor ← read Heap.cursor
  if start < cursor ∧ cursor < stop then
    moveCursor start
  return start

namespace Heap

variable {h : Heap} {o : Outline} {b c : Block}

theorem Depicts.next (hd : h.Depicts o) (hl : o.Laid) (hb : b ∈ o.blocks) :
    h.region.next b.bp = .ok b.stop := by
  have hlow := (hl.bounds hb).1
  have hstop := (hl.bounds hb).2.1
  apply (hd.region.tagged b (List.mem_cons_of_mem _ hb)).next (by omega)
  rw [hd.region.size]
  simp only [Block.stop] at hstop
  omega

theorem Depicts.tagBefore {xs ys : List Block} (hd : h.Depicts o) (hl : o.Laid)
    (hsplit : o.blocks = xs ++ b :: ys) :
    h.region.tagBefore b.bp = .ok (Outline.tagBefore xs) := by
  have habut := hl.guarded_abut
  have htags := hd.region.tagged
  have hsize := hd.region.size
  rw [Outline.guarded, hsplit, ← List.cons_append] at habut htags
  obtain ⟨hxs, hys⟩ := abut_middle.1 habut
  have hlast := List.dropLast_append_getLast (List.cons_ne_nil Outline.prologue xs)
  have hxs' := hxs
  rw [← hlast] at hxs'
  have hstop : ((Outline.prologue :: xs).getLast (List.cons_ne_nil _ _)).stop = b.bp :=
    (abut_middle.1 hxs').2
  have htag := htags _ (List.mem_append_left _ (List.getLast_mem (List.cons_ne_nil _ xs)))
  have hlow := hxs.le
  have hhigh := hys.le
  rw [← hstop] at hlow
  rw [← hstop, htag.tagBefore hlow, Outline.tagBefore]
  rw [hstop, hsize]
  simp only [Block.stop] at hhigh
  omega

theorem Depicts.tagAfter {xs ys : List Block} (hd : h.Depicts o) (hl : o.Laid)
    (hsplit : o.blocks = xs ++ b :: ys) : h.region.tagAt b.stop = .ok (Outline.tagAfter ys) := by
  have hb : b ∈ o.blocks := by simp [hsplit]
  obtain ⟨hlow, hstop, -, -⟩ := hl.bounds hb
  have habut := hl.abut
  have hsize := hd.region.size
  rw [hsplit] at habut
  have hys := (abut_middle.1 habut).2
  have h4 : 4 ≤ b.stop := by
    simp only [Block.stop]
    omega
  cases ys with
  | nil =>
    have htop : b.stop = o.top := hys
    rw [Region.tagAt_eq h4 (by omega), htop, hd.region.epilogue]
    rfl
  | cons d ys =>
    have hdmem : d ∈ o.blocks := by simp [hsplit]
    rw [← hys.1]
    exact hd.tagAt hl hdmem

theorem settle_run {start stop : Nat} (hstop : h.region.next start = .ok stop) (j : Array Event) :
    settle start ⟨h, j⟩ = .ok start
      ⟨{ h with cursor := if start < h.cursor ∧ h.cursor < stop then start else h.cursor }, j⟩ := by
  rw [settle, bind_ok (look_run hstop j), bind_ok (read_run h j _)]
  by_cases hc : start < h.cursor ∧ h.cursor < stop
  · rw [if_pos hc, if_pos hc]
    rfl
  · rw [if_neg hc, if_neg hc]
    rfl

theorem merge_eval {before after : Tag} {r : Region}
    (hbefore : h.region.tagBefore b.bp = .ok before)
    (hafter : (do h.region.tagAt (← h.region.next b.bp)) = .ok after)
    (hown : h.region.tagAt b.bp = .ok b.tag)
    (hlow : c.bp + before.freeSize = b.bp)
    (hleft : before.allocated = false → h.region.tagAt c.bp = .ok before)
    (hsize : c.size = before.freeSize + b.size + after.freeSize)
    (hwrite : if before.allocated && after.allocated then r = h.region
      else writeTags c.bp ⟨c.size, false⟩ h.region = .ok () r)
    (hnext : r.next c.bp = .ok c.stop) (j : Array Event) :
    BoundaryTag.merge b.bp ⟨h, j⟩ = .ok c.bp ⟨{ h.withRegion r with
      cursor := if c.bp < h.cursor ∧ h.cursor < c.stop then c.bp else h.cursor }, j⟩ := by
  have hdown : minus b.bp before.freeSize = .ok c.bp := by
    rw [minus_of_le (by omega)]
    congr 1
    omega
  rw [BoundaryTag.merge, bind_ok (look_run hbefore j), bind_ok (look_run hafter j),
    bind_ok (look_run hown j)]
  cases hb : before.allocated with
  | true =>
    have hstart : c.bp = b.bp := by simpa [Tag.freeSize, hb] using hlow
    cases ha : after.allocated with
    | true =>
      simp only [hb, ha, Bool.and_self, if_true] at hwrite ⊢
      subst hwrite
      rw [bind_ok (pure_ok _ _), ← hstart]
      exact settle_run hnext j
    | false =>
      simp only [hb, ha, Bool.and_false, Bool.false_eq_true, if_false, if_true] at hwrite ⊢
      have hsum : c.size = 0 + b.tag.size + after.size := by
        simpa [Tag.freeSize, hb, ha, Block.tag] using hsize
      rw [bind_ok (pure_ok _ _), bind_ok (pure_ok _ _), ← hstart, ← hsum, bind_ok (edit_run hwrite j)]
      exact settle_run (h := h.withRegion r) hnext j
  | false =>
    simp only [hb, Tag.freeSize, Bool.false_eq_true, if_false] at hdown
    have hlook := look_run (f := (·.tagAt c.bp)) (hleft hb) j
    cases ha : after.allocated with
    | true =>
      simp only [hb, ha, Bool.and_true, Bool.false_eq_true, if_false, if_true] at hwrite ⊢
      have hsum : c.size = before.size + b.tag.size + 0 := by
        simpa [Tag.freeSize, hb, ha, Block.tag] using hsize
      rw [bind_ok (lift_run hdown _), bind_ok (map_ok hlook Tag.size), ← hsum,
        bind_ok (edit_run hwrite j)]
      exact settle_run (h := h.withRegion r) hnext j
    | false =>
      simp only [hb, ha, Bool.and_self, Bool.false_eq_true, if_false] at hwrite ⊢
      have hsum : c.size = before.size + b.tag.size + after.size := by
        simpa [Tag.freeSize, hb, ha, Block.tag] using hsize
      rw [bind_ok (lift_run hdown _), bind_ok (map_ok hlook Tag.size), ← hsum,
        bind_ok (edit_run hwrite j)]
      exact settle_run (h := h.withRegion r) hnext j

theorem write_joined {before after : Tag} (hd : h.Depicts o) (hl : o.Laid) (hb : b ∈ o.blocks)
    (hfree : b.allocated = false) (hc : o.Joined b c before after) (htop : o.top ≤ maxBlock) :
    ∃ r, (if before.allocated && after.allocated then r = h.region
        else writeTags c.bp ⟨c.size, false⟩ h.region = .ok () r) ∧
      h.region.Within r (c.bp - 4) (c.stop - 4) ∧ r.Tagged c := by
  have hlaid := Outline.merge_laid hl
  obtain ⟨hlow, hstop, hsize⟩ := hlaid.bounds hc.mem_merge
  have hrsize := hd.region.size
  have htop' : o.merge.top = o.top := rfl
  have hcstop : c.stop = c.bp + c.size := rfl
  have hcfree : (⟨c.bp, c.size, false⟩ : Block) = c := by rw [← hc.free]
  cases hboth : before.allocated && after.allocated with
  | true =>
    simp only [Bool.and_eq_true] at hboth
    have hbp : c.bp = b.bp := by
      have := hc.low
      rwa [Tag.freeSize_of_allocated hboth.1] at this
    have hsame : c.size = b.size := by
      have := hc.size
      rw [Tag.freeSize_of_allocated hboth.1, Tag.freeSize_of_allocated hboth.2] at this
      omega
    have hcb : c = b := by rw [← hcfree, hbp, hsame, ← hfree]
    have htag : h.region.Tagged c := hcb ▸ hd.region.tagged b (List.mem_cons_of_mem _ hb)
    exact ⟨h.region, by rw [if_pos rfl], Region.Within.refl _ _ _, htag⟩
  | false =>
    have hwrite : writeTags c.bp ⟨c.size, false⟩ h.region = .ok () (h.region.retag c) := by
      rw [Region.writeTags_eq (by omega) hsize (by omega) (by omega), hcfree]
    refine ⟨h.region.retag c, hwrite, ?_, ?_⟩
    · exact Region.within_retag (by omega) hsize.1 (by omega)
    · exact Region.tagged_retag (by omega) hsize (by omega) (by omega)

theorem merge_run {xs ys : List Block} (hd : h.Depicts o) (hl : o.Laid)
    (hsplit : o.blocks = xs ++ b :: ys) (hfree : b.allocated = false) (hxs : Apart xs)
    (hys : Apart ys) (htop : o.top ≤ maxBlock) (j : Array Event) :
    ∃ c h', BoundaryTag.merge b.bp ⟨h, j⟩ = .ok c.bp ⟨h', j⟩ ∧
      (c ∈ o.merge.blocks ∧ c.bp ≤ b.bp ∧ b.stop ≤ c.stop) ∧ h'.Depicts o.merge ∧
      h.Keeps h' o.inUse ∧ h'.live = h.live := by
  have hb : b ∈ o.blocks := by simp [hsplit]
  obtain ⟨c, hc⟩ := Outline.joined hl hsplit hfree hxs hys
  have hlaid := Outline.merge_laid hl
  obtain ⟨hlow, hstop, hsize⟩ := hlaid.bounds hc.mem_merge
  have htop' : o.merge.top = o.top := rfl
  have hrsize := hd.region.size
  have hcstop : c.stop = c.bp + c.size := rfl
  obtain ⟨r, hwrite, hwithin, htag⟩ := write_joined hd hl hb hfree hc htop
  have hafter : (do h.region.tagAt (← h.region.next b.bp)) = .ok (Outline.tagAfter ys) := by
    rw [hd.next hl hb]
    exact hd.tagAfter hl hsplit
  have hleft : (Outline.tagBefore xs).allocated = false →
      h.region.tagAt c.bp = .ok (Outline.tagBefore xs) := by
    intro ht
    obtain ⟨l, hlmem, hlbp, hltag⟩ := hc.left ht
    rw [← hlbp, hd.tagAt hl hlmem, hltag]
  have hnext : r.next c.bp = .ok c.stop := htag.next (by omega) (by rw [hwithin.size]; omega)
  have hrun := merge_eval (hd.tagBefore hl hsplit) hafter (hd.tagAt hl hb) hc.low hleft hc.size
    hwrite hnext j
  have hshows : r.Shows o.merge := by
    obtain ⟨xs', mid, ys', hblocks, hmerge, hxs', -, hys', -⟩ := hc.split
    apply hd.region.splice hl hblocks hmerge rfl hxs' hys' hwithin
    intro d hdc
    rwa [List.mem_singleton.1 hdc]
  have hspares := hwithin.spares hlaid.abut hc.mem_merge hc.not_joined
  have hsealed := hwithin.sealed (by omega) (by omega)
  have hcursor : (if c.bp < h.cursor ∧ h.cursor < c.stop then c.bp else h.cursor) =
      o.merge.cursor := by rw [hc.cursor hl, hd.cursor]
  exact ⟨c, _, hrun, ⟨hc.mem_merge, hc.covers⟩, ⟨hshows, hcursor⟩, ⟨rfl, rfl, rfl, rfl, hspares, hsealed⟩,
    rfl⟩

end Heap

end BoundaryTag
