import BoundaryTag.Proofs.Depiction

/-!
# Carving and merging on a depicted outline

On a heap that depicts an outline, `occupy` and `merge` run to their end and leave a heap that depicts
the outline as carved or merged. Only bytes of free blocks are written.
-/

set_option autoImplicit false

namespace BoundaryTag

open HeapM

theorem Region.retag_all {r : Region} {bs : List Block} {start stop : Nat}
    (habut : Abut start bs stop) (hs : Sized bs) (h4 : 4 ≤ start) (hle : stop ≤ r.size + 4)
    (hmax : ∀ b ∈ bs, b.size ≤ maxBlock) :
    r.Within (bs.foldl Region.retag r) (start - 4) (stop - 4) ∧
      ∀ b ∈ bs, (bs.foldl Region.retag r).Tagged b := by
  induction bs generalizing r start with
  | nil => exact ⟨Within.refl r _ _, fun b hb => absurd hb List.not_mem_nil⟩
  | cons b bs ih =>
    have hbp : b.bp = start := habut.1
    have hb := hs b (by simp)
    have hstop := habut.2.le
    have hw := within_retag (r := r) (b := b) (by omega) hb.1 (by omega)
    have ht := tagged_retag (r := r) (b := b) (by omega) hb (by omega) (hmax b (by simp))
    have hlow : b.stop = start + b.size := by rw [Block.stop, hbp]
    obtain ⟨hw', ht'⟩ := ih (r := r.retag b) habut.2 (fun c hc => hs c (by simp [hc])) (by omega)
      (by rw [hw.size]; exact hle) (fun c hc => hmax c (by simp [hc]))
    rw [List.foldl_cons]
    constructor
    · exact (hw.widen (by omega) (by omega)).trans (hw'.widen (by omega) (by omega))
    · intro c hc
      rcases List.mem_cons.1 hc with rfl | hc
      · apply ht.congr (by omega) hb.1
        intro i _ hi
        exact hw'.byte i (by omega)
      · exact ht' c hc

def advance (bp : Nat) : HeapM Unit := do
  if (← read Heap.cursor) = bp then
    moveCursor (← look (·.next bp))

namespace Heap

variable {h : Heap} {o : Outline} {b : Block}

theorem Depicts.tagAt (hd : h.Depicts o) (hl : o.Laid) (hb : b ∈ o.blocks) :
    h.region.tagAt b.bp = .ok b.tag := by
  obtain ⟨hlow, hstop, -, -⟩ := hl.bounds hb
  apply (hd.region.tagged b (List.mem_cons_of_mem _ hb)).tagAt (by omega)
  rw [hd.region.size]
  simp only [Block.stop] at hstop
  omega

theorem advance_run {next bp : Nat} (hnext : h.region.next bp = .ok next) (j : Array Event) :
    advance bp ⟨h, j⟩ =
      .ok () ⟨{ h with cursor := if h.cursor = bp then next else h.cursor }, j⟩ := by
  rw [advance, bind_ok (read_run h j _)]
  by_cases hc : h.cursor = bp
  · rw [if_pos hc, if_pos hc, bind_ok (look_run hnext j), moveCursor_run]
  · rw [if_neg hc, if_neg hc]
    rfl

theorem write_carved {r : Region} {want : Nat} (hlow : 4 ≤ b.bp) (hstop : b.stop ≤ r.size)
    (hsize : 8 ≤ b.size ∧ b.size % 8 = 0) (hmax : r.size ≤ maxBlock)
    (hw : 16 ≤ want ∧ want % 8 = 0) :
    (if minBlock ≤ b.size - want then do
        writeTags b.bp ⟨want, true⟩
        writeTags (b.bp + want) ⟨b.size - want, false⟩
      else writeTags b.bp ⟨b.size, true⟩ : RegionM Unit) r =
        .ok () ((b.carved want).foldl Region.retag r) := by
  simp only [Block.stop] at hstop
  by_cases hcut : minBlock ≤ b.size - want
  · have hrest : 16 ≤ b.size - want := hcut
    have hfirst : writeTags b.bp ⟨want, true⟩ r = .ok () (r.retag ⟨b.bp, want, true⟩) :=
      Region.writeTags_eq hlow (by omega) (by omega) (by omega)
    have hw' := Region.within_retag (r := r) (b := ⟨b.bp, want, true⟩) hlow (by dsimp only; omega)
      (by simp only [Block.stop]; omega)
    have hsecond : writeTags (b.bp + want) ⟨b.size - want, false⟩ (r.retag ⟨b.bp, want, true⟩) =
        .ok () ((r.retag ⟨b.bp, want, true⟩).retag ⟨b.bp + want, b.size - want, false⟩) := by
      apply Region.writeTags_eq
      · omega
      · omega
      · rw [hw'.size]
        omega
      · omega
    rw [Block.carved, if_pos hcut, if_pos hcut, bind_ok hfirst, hsecond, List.foldl_cons,
      List.foldl_cons, List.foldl_nil]
  · rw [Block.carved, if_neg hcut, if_neg hcut, List.foldl_cons, List.foldl_nil]
    exact Region.writeTags_eq hlow hsize (by omega) (by omega)

theorem carve_run {want next : Nat} {r : Region} (hle : want ≤ b.size)
    (htag : h.region.tagAt b.bp = .ok b.tag)
    (hwrite : (if minBlock ≤ b.size - want then do
        writeTags b.bp ⟨want, true⟩
        writeTags (b.bp + want) ⟨b.size - want, false⟩
      else writeTags b.bp ⟨b.size, true⟩ : RegionM Unit) h.region = .ok () r)
    (hnext : r.next b.bp = .ok next) (j : Array Event) :
    BoundaryTag.occupy b.bp want ⟨h, j⟩ = .ok ()
      ⟨{ h.withRegion r with cursor := if h.cursor = b.bp then next else h.cursor }, j⟩ := by
  have hrest : minus b.tag.size want = .ok (b.size - want) := minus_of_le hle
  rw [BoundaryTag.occupy, bind_ok (look_run htag j), bind_ok (lift_run hrest _)]
  simp only [Block.tag]
  by_cases hcut : minBlock ≤ b.size - want
  · rw [if_pos hcut] at hwrite
    rw [if_pos hcut, bind_ok (edit_run hwrite j)]
    exact advance_run (h := h.withRegion r) hnext j
  · rw [if_neg hcut] at hwrite
    rw [if_neg hcut, bind_ok (edit_run hwrite j)]
    exact advance_run (h := h.withRegion r) hnext j

theorem occupy_run {want : Nat} (hd : h.Depicts o) (hv : o.Valid) (hb : b ∈ o.blocks)
    (hfree : b.allocated = false) (hw : 16 ≤ want ∧ want % 8 = 0) (hle : want ≤ b.size)
    (htop : o.top ≤ maxBlock) (j : Array Event) :
    ∃ h', BoundaryTag.occupy b.bp want ⟨h, j⟩ = .ok () ⟨h', j⟩ ∧ h'.Depicts (o.occupy b want) ∧
      h.Keeps h' o.inUse ∧ h'.live = h.live := by
  obtain ⟨hlow, hstop, hsize⟩ := hv.bounds hb
  obtain ⟨xs, ys, hsplit, hrecut⟩ := hv.split hb
  have hrsize := hd.region.size
  have habut := hv.abut
  rw [hsplit] at habut
  obtain ⟨hxs, hys⟩ := abut_middle.1 habut
  have hmax : ∀ c ∈ b.carved want, c.size ≤ maxBlock := by
    intro c hc
    have := ((abut_carved hle).bounds hc).2
    simp only [Block.stop] at *
    omega
  obtain ⟨hwithin, htags⟩ := Region.retag_all (r := h.region) (abut_carved hle)
    (sized_carved hsize hw) (by omega) (by omega) hmax
  have hfirst := htags _ (share_mem_carved want b)
  have hnext := hfirst.next (by simp only; omega)
    (by rw [hwithin.size]; simp only [Block.stop] at *; omega)
  have hwrite := write_carved (r := h.region) (by omega) (by omega) hsize (by omega) hw
  have hrun := carve_run hle (hd.tagAt hv.toLaid hb) hwrite hnext j
  have hmid : o.blocks = xs ++ ([b] ++ ys) := hsplit
  have hshows : ((b.carved want).foldl Region.retag h.region).Shows (o.occupy b want) :=
    hd.region.splice hv.toLaid hmid (Outline.occupy_blocks want hrecut) rfl hxs hys
      hwithin htags
  have hspares : h.region.Spares ((b.carved want).foldl Region.retag h.region) o.inUse := by
    apply hwithin.spares hv.abut hb
    intro c hc
    obtain ⟨hmem, halloc⟩ := Outline.mem_inUse.1 hc
    refine ⟨hmem, ?_⟩
    rintro rfl
    rw [hfree] at halloc
    cases halloc
  have hsealed := hwithin.sealed (by omega) (by omega)
  refine ⟨_, hrun, ⟨hshows, ?_⟩, ⟨rfl, rfl, rfl, rfl, hspares, hsealed⟩, rfl⟩
  simp only [Outline.occupy, hd.cursor, Block.stop]

end Heap

end BoundaryTag
