import BoundaryTag.Proofs.Outline
import BoundaryTag.Proofs.Tags

/-!
# Heaps that depict an outline

A region shows an outline when every block of it, the prologue included, carries its tags and an
epilogue stands at the top. A walk over such a region lists the outline's blocks. Changes that stay
within the extent of some neighbouring blocks, and tag what replaces them, show the outline with those
blocks replaced.
-/

set_option autoImplicit false

namespace BoundaryTag

namespace Region

variable {r r' : Region} {o : Outline}

theorem walk_stop {bp : Nat} {t : Tag} (h : r.tagAt bp = .ok t) (hs : t.size = 0) :
    r.walk bp = ⟨[], bp, none⟩ := by
  rw [walk]
  split
  · simp_all
  · next t' h' =>
    obtain rfl : t' = t := by simp_all
    rw [dif_pos hs]

theorem walk_step {bp : Nat} {t : Tag} (h : r.tagAt bp = .ok t) (hs : t.size ≠ 0) :
    r.walk bp = { r.walk (bp + t.size) with
      blocks := ⟨bp, t.size, t.allocated⟩ :: (r.walk (bp + t.size)).blocks } := by
  rw [walk]
  split
  · simp_all
  · next t' h' =>
    obtain rfl : t' = t := by simp_all
    rw [dif_neg hs]

theorem walk_eq {bs : List Block} {start : Nat} (habut : Abut start bs r.size) (hs : Sized bs)
    (h4 : 4 ≤ start) (htag : ∀ b ∈ bs, r.Tagged b)
    (hend : Tag.ofWord (r.word (r.size - 4)) = ⟨0, true⟩) : r.walk start = ⟨bs, r.size, none⟩ := by
  induction bs generalizing start with
  | nil =>
    have hstart : start = r.size := habut
    have hread := tagAt_eq h4 (Nat.le_of_eq hstart)
    rw [hstart, hend] at hread
    rw [hstart, walk_stop hread rfl]
  | cons b bs ih =>
    have hbp : b.bp = start := habut.1
    have hsize := (hs b (by simp)).1
    have hle := habut.2.le
    have hread := (htag b (by simp)).tagAt (by omega) (by simp only [Block.stop] at hle; omega)
    have hrest := ih habut.2 (fun c hc => hs c (by simp [hc])) (by simp only [Block.stop]; omega)
      (fun c hc => htag c (by simp [hc]))
    rw [← hbp, walk_step hread (by simp only [Block.tag]; omega)]
    show { r.walk b.stop with blocks := b :: (r.walk b.stop).blocks } = _
    rw [hrest]

structure Shows (r : Region) (o : Outline) : Prop where
  size : r.size = o.top
  tagged : ∀ b ∈ o.guarded, r.Tagged b
  epilogue : Tag.ofWord (r.word (o.top - 4)) = ⟨0, true⟩

theorem Shows.walk (h : r.Shows o) (hl : o.Laid) : r.walk 16 = ⟨o.blocks, o.top, none⟩ := by
  rw [← h.size]
  exact walk_eq (h.size ▸ hl.abut) hl.sized (by decide)
    (fun b hb => h.tagged b (List.mem_cons_of_mem _ hb)) (h.size ▸ h.epilogue)

theorem Shows.walk_boundary (h : r.Shows o) (hl : o.Laid) {pos : Nat}
    (hpos : Boundary o.guarded o.top pos) :
    r.walk pos = ⟨o.guarded.dropWhile (·.bp < pos), o.top, none⟩ := by
  obtain ⟨xs, ys, hsplit, hxs, hys⟩ := hpos.split hl.guarded_abut
  have hsized := hl.guarded_sized
  have htag := h.tagged
  rw [hsplit] at hsized htag
  rw [hsplit, dropWhile_abut (fun b hb => hsized b (by simp [hb])) hxs hys, ← h.size]
  have hlow := hxs.le
  exact walk_eq (h.size ▸ hys) (fun b hb => hsized b (by simp [hb])) (by omega)
    (fun b hb => htag b (by simp [hb])) (h.size ▸ h.epilogue)

theorem Shows.splice {o' : Outline} {xs mid mid' ys : List Block} {start stop : Nat}
    (h : r.Shows o) (hl : o.Laid) (ho : o.blocks = xs ++ (mid ++ ys))
    (ho' : o'.blocks = xs ++ (mid' ++ ys)) (htop : o'.top = o.top) (hxs : Abut 16 xs start)
    (hys : Abut stop ys o.top) (hw : r.Within r' (start - 4) (stop - 4))
    (htag : ∀ b ∈ mid', r'.Tagged b) : r'.Shows o' := by
  have hstart := hxs.le
  have hstop := hys.le
  have hkeep : ∀ b ∈ o.guarded, b.stop ≤ start ∨ stop ≤ b.bp → r'.Tagged b := by
    intro b hb hout
    have hsize := (hl.guarded_sized b hb).1
    have hlow := (hl.guarded_abut.bounds hb).1
    apply (h.tagged b hb).congr (by omega) hsize
    intro i hi hi'
    exact hw.byte i (by simp only [Block.stop] at *; omega)
  have htagged : ∀ b ∈ o'.guarded, r'.Tagged b := by
    intro b hb
    rcases List.mem_cons.1 hb with rfl | hb
    · exact hkeep _ (by simp [Outline.guarded]) (.inl hstart)
    · rw [ho'] at hb
      rcases List.mem_append.1 hb with hx | hb
      · exact hkeep b (by simp [Outline.guarded, ho, hx]) (.inl (hxs.bounds hx).2)
      · rcases List.mem_append.1 hb with hm | hy
        · exact htag b hm
        · exact hkeep b (by simp [Outline.guarded, ho, hy]) (.inr (hys.bounds hy).1)
  have hend : r'.word (o.top - 4) = r.word (o.top - 4) :=
    word_congr fun i _ _ => hw.byte i (by omega)
  exact ⟨by rw [hw.size, h.size, htop], htagged, by rw [htop, hend, h.epilogue]⟩

theorem Shows.append {bytes : Nat} (h : r.Shows o) (hl : o.Laid)
    (hsize : r'.size = o.top + bytes) (hbyte : ∀ i, i < o.top - 4 → r'.byte i = r.byte i)
    (htag : r'.Tagged ⟨o.top, bytes, false⟩)
    (hend : Tag.ofWord (r'.word (o.top + bytes - 4)) = ⟨0, true⟩) :
    r'.Shows (o.append bytes) := by
  have htagged : ∀ b ∈ (o.append bytes).guarded, r'.Tagged b := by
    intro b hb
    rw [Outline.guarded, Outline.append, ← List.cons_append] at hb
    rcases List.mem_append.1 hb with hb | hb
    · have hsize := (hl.guarded_sized b hb).1
      obtain ⟨hlow, hstop⟩ := hl.guarded_abut.bounds hb
      apply (h.tagged b hb).congr (by omega) hsize
      intro i _ hi
      exact hbyte i (by omega)
    · rw [List.mem_singleton.1 hb]
      exact htag
  exact ⟨hsize, htagged, hend⟩

theorem Shows.inside {b : Block} {low high : Nat} (h : r.Shows o) (hl : o.Laid) (hb : b ∈ o.blocks)
    (hw : r.Within r' low high) (hlow : b.bp ≤ low) (hhigh : high ≤ b.stop - 8) : r'.Shows o := by
  obtain ⟨hbp, hstop, hbsize, -⟩ := hl.bounds hb
  have hbstop : b.stop = b.bp + b.size := rfl
  have htagged : ∀ c ∈ o.guarded, r'.Tagged c := by
    intro c hc
    have hclow := (hl.guarded_abut.bounds hc).1
    have hcsize := (hl.guarded_sized c hc).1
    rcases hl.guarded_abut.disjoint hc (List.mem_cons_of_mem _ hb) with rfl | hd
    · exact (h.tagged c hc).payload (by omega) (hw.widen hlow hhigh)
    · apply (h.tagged c hc).congr (by omega) hcsize
      intro i hi hi'
      exact hw.byte i (by omega)
  have hend : r'.word (o.top - 4) = r.word (o.top - 4) :=
    word_congr fun i _ _ => hw.byte i (by omega)
  exact ⟨by rw [hw.size, h.size], htagged, by rw [hend, h.epilogue]⟩

def Spares (r r' : Region) (bs : List Block) : Prop :=
  ∀ b ∈ bs, ∀ i, b.bp - 4 ≤ i → i < b.stop - 4 → r'.byte i = r.byte i

theorem Within.spares {bs ks : List Block} {start stop : Nat} {c : Block}
    (hw : r.Within r' (c.bp - 4) (c.stop - 4)) (h : Abut start bs stop) (hc : c ∈ bs)
    (hks : ∀ b ∈ ks, b ∈ bs ∧ b ≠ c) : r.Spares r' ks := by
  intro b hb i hi hi'
  obtain ⟨hmem, hne⟩ := hks b hb
  rcases h.disjoint hmem hc with heq | hd
  · exact absurd heq hne
  · exact hw.byte i (by omega)

structure Sealed (r : Region) : Prop where
  header : r.word 4 = Tag.word ⟨8, true⟩
  footer : r.word 8 = Tag.word ⟨8, true⟩
  epilogue : r.word (r.size - 4) = Tag.word ⟨0, true⟩

theorem Within.sealed {low high : Nat} (hw : r.Within r' low high) (hlow : 12 ≤ low)
    (hhigh : high ≤ r.size - 4) (h : r.Sealed) : r'.Sealed := by
  have hword : ∀ pos, pos + 4 ≤ low ∨ high ≤ pos → r'.word pos = r.word pos :=
    fun pos hpos => word_congr fun i _ _ => hw.byte i (by omega)
  exact ⟨by rw [hword 4 (by omega), h.header], by rw [hword 8 (by omega), h.footer],
    by rw [hw.size, hword _ (by omega), h.epilogue]⟩

end Region

/-- What a caller can tell of a heap without looking into a payload. -/
structure View where
  size : Nat
  blocks : Except Trap (List Block)
  cursor : Nat
  live : Option LiveBlocks
deriving DecidableEq

namespace Heap

def view (h : Heap) : View := ⟨h.size, h.blocks, h.cursor, h.live⟩

structure Depicts (h : Heap) (o : Outline) : Prop where
  region : h.region.Shows o
  cursor : h.cursor = o.cursor

variable {h h' : Heap} {o : Outline}

theorem Depicts.size (hd : h.Depicts o) : h.size = o.top := hd.region.size

theorem Depicts.walk (hd : h.Depicts o) (hl : o.Laid) : h.walk = ⟨o.blocks, o.top, none⟩ := by
  have hnext : h.region.next 8 = .ok 16 := by
    apply (hd.region.tagged Outline.prologue (by simp [Outline.guarded])).next (by decide)
    rw [hd.region.size]
    exact Nat.le_trans (by decide) hl.top_ge
  rw [Heap.walk, hnext]
  exact hd.region.walk hl

theorem Depicts.blocks (hd : h.Depicts o) (hl : o.Laid) : h.blocks = .ok o.blocks := by
  rw [Heap.blocks, hd.walk hl, Walk.complete]

theorem freeBytes_of_blocks {bs : List Block} (hblocks : h.blocks = .ok bs) :
    h.freeBytes = .ok (freeSum bs) := by
  rw [freeBytes, hblocks, freeSum, List.sum, List.foldr_map]
  rfl

theorem Depicts.view (hd : h.Depicts o) (hl : o.Laid) :
    h.view = ⟨o.top, .ok o.blocks, o.cursor, h.live⟩ := by
  rw [Heap.view, hd.size, hd.blocks hl, hd.cursor]

/-- What an operation leaves as it was: the settings, the place of the arena, whether live blocks are
tracked, and the bytes of the blocks `ks`. -/
structure Keeps (h h' : Heap) (ks : List Block) : Prop where
  settings : h'.settings = h.settings
  base : h'.arena.base = h.arena.base
  capacity : h'.arena.capacity = h.arena.capacity
  tracked : h'.live.isSome = h.live.isSome
  spares : h.region.Spares h'.region ks
  sealed : h.region.Sealed → h'.region.Sealed

theorem Keeps.refl (h : Heap) (ks : List Block) : h.Keeps h ks :=
  ⟨rfl, rfl, rfl, rfl, fun _ _ _ _ _ => rfl, id⟩

theorem Keeps.trans {h'' : Heap} {ks : List Block} (hk : h.Keeps h' ks) (hk' : h'.Keeps h'' ks) :
    h.Keeps h'' ks :=
  ⟨hk'.settings.trans hk.settings, hk'.base.trans hk.base, hk'.capacity.trans hk.capacity,
    hk'.tracked.trans hk.tracked,
    fun b hb i hi hi' => (hk'.spares b hb i hi hi').trans (hk.spares b hb i hi hi'),
    fun hs => hk'.sealed (hk.sealed hs)⟩

theorem Keeps.mono {ks ks' : List Block} (hk : h.Keeps h' ks) (hsub : ∀ b ∈ ks', b ∈ ks) :
    h.Keeps h' ks' :=
  ⟨hk.settings, hk.base, hk.capacity, hk.tracked, fun b hb => hk.spares b (hsub b hb), hk.sealed⟩

theorem depicts_withRegion {r : Region} {o' : Outline} (hs : r.Shows o')
    (hc : h.cursor = o'.cursor) : (h.withRegion r).Depicts o' := ⟨hs, hc⟩

theorem keeps_withRegion {r : Region} {ks : List Block} (hs : h.region.Spares r ks)
    (hsealed : h.region.Sealed → r.Sealed) : h.Keeps (h.withRegion r) ks :=
  ⟨rfl, rfl, rfl, rfl, hs, hsealed⟩

end Heap

end BoundaryTag
