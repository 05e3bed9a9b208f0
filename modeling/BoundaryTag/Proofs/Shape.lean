import BoundaryTag.Proofs.Checking
import BoundaryTag.Proofs.Client

/-!
# The shape of a heap in use

Whatever a client does with the blocks it holds, the bytes of the heap keep their shape: sentinels at
both ends, and between them tagged blocks without gap, overlap or free neighbours.
-/

set_option autoImplicit false

namespace BoundaryTag

namespace Heap

/-- The heap is laid out as the blocks `bs` between its sentinels. -/
structure Shaped (h : Heap) (bs : List Block) : Prop where
  listed : h.blocks = .ok bs
  aligned : h.size % 8 = 0
  prologueHeader : h.region.readWord 4 = Tag.encode ⟨8, true⟩
  prologueFooter : h.region.readWord 8 = Tag.encode ⟨8, true⟩
  epilogue : h.region.header h.size = Tag.encode ⟨0, true⟩
  tiles : Abut 16 bs h.size
  sizes : ∀ b ∈ bs, 0 < b.size ∧ b.size % 8 = 0
  tags : ∀ b ∈ bs, ∃ w, h.region.header b.bp = .ok w ∧ h.region.footer b.bp = .ok w ∧
    Tag.ofWord w = ⟨b.size, b.allocated⟩
  total : (bs.map Block.size).sum = h.size - 16
  apart : ∀ xs ys b c, bs = xs ++ b :: c :: ys → b.allocated = true ∨ c.allocated = true
  cursor : h.cursor = prologue ∨ (∃ b ∈ bs, b.bp = h.cursor) ∨ h.cursor = h.size

variable {h : Heap} {o : Outline}

theorem Depicts.tags (hd : h.Depicts o) (hl : o.Laid) {b : Block} (hb : b ∈ o.blocks) :
    ∃ w, h.region.header b.bp = .ok w ∧ h.region.footer b.bp = .ok w ∧
      Tag.ofWord w = ⟨b.size, b.allocated⟩ := by
  obtain ⟨hlow, hstop, h8, -⟩ := hl.bounds hb
  have hrsize := hd.region.size
  exact (hd.region.tagged b (List.mem_cons_of_mem _ hb)).words (by omega) h8 (by omega)

theorem Sound.shaped (hs : h.Sound o) (hsealed : h.region.Sealed) : h.Shaped o.blocks := by
  have hd := hs.depicts
  have hl := hs.valid.toLaid
  have hsize : h.size = o.top := hd.size
  have htop := hl.top_ge
  have hread : ∀ pos, pos + 4 ≤ o.top → h.region.readWord pos = .ok (h.region.word pos) := by
    intro pos hpos
    rw [← hsize] at hpos
    exact if_pos hpos
  have hepilogue : h.region.header h.size = Tag.encode ⟨0, true⟩ := by
    rw [Tag.encode_end, ← hsealed.epilogue]
    exact Region.header_eq (by omega) (Nat.le_refl _)
  have hapart : ∀ xs ys b c, o.blocks = xs ++ b :: c :: ys →
      b.allocated = true ∨ c.allocated = true := by
    intro xs ys b c hsplit
    have hap := hs.valid.apart
    rw [hsplit] at hap
    exact (List.isChain_cons_cons.1 (List.isChain_append.1 hap).2.1).1
  have hcursor : h.cursor = 8 ∨ (∃ b ∈ o.blocks, b.bp = h.cursor) ∨ h.cursor = h.size := by
    rw [hd.cursor, hsize]
    rcases Outline.boundary_blocks.1 hl.cursor with h8 | hb | htop
    · exact .inl h8
    · exact .inr (.inl (List.mem_map.1 hb))
    · exact .inr (.inr htop)
  have htotal := hl.abut.total
  constructor
  · exact hd.blocks hl
  · rw [hsize]
    exact hl.aligned.2
  · rw [hread 4 (by omega), Tag.encode_guard, hsealed.header]
  · rw [hread 8 (by omega), Tag.encode_guard, hsealed.footer]
  · exact hepilogue
  · rw [hsize]
    exact hl.abut
  · intro b hb
    have := hl.sized b hb
    omega
  · intro b hb
    exact hd.tags hl hb
  · omega
  · exact hapart
  · exact hcursor

end Heap

namespace Client

/-- However a client uses the blocks it holds, the heap keeps its shape and its limit. -/
theorem honest_run_shaped {s t : Settings} (base : Nat) (hs : s.validate = .ok t) :
    ∃ c₀, start s base = .ok c₀ ∧ ∀ acts, obeys honest acts c₀ = true →
      ∃ c bs, run acts c₀ = .ok c ∧ c.heap.size ≤ s.limit ∧ c.heap.Shaped bs := by
  obtain ⟨c₀, o₀, hstart, hc₀, hsettings₀, hlive₀⟩ := start_sound base hs
  refine ⟨c₀, hstart, fun acts hobeys => ?_⟩
  obtain ⟨c, o, hrun, hc, hsettings, -⟩ :=
    run_sound (honest_bearable t.checked) hc₀ hlive₀ hobeys
  have hlimit : c.heap.size ≤ s.limit := by
    have hroom := hc.heap.room
    rw [hsettings, hsettings₀, (Settings.accepted_of_validate hs).2.1] at hroom
    rw [hc.heap.depicts.size]
    exact hroom
  exact ⟨c, o.blocks, hrun, hlimit, hc.heap.shaped hc.sealed⟩

theorem moved_block_run_shaped : ∃ c₀ c bs, start ⟨12, 128, true⟩ 4096 = .ok c₀ ∧
    run [.allocate 20, .allocate 5, .write 16 3 ⟨#[9, 9]⟩, .release 48, .reallocate 16 30] c₀ =
      .ok c ∧ c.heap.size ≤ 128 ∧ c.heap.Shaped bs := by
  have hvalid : Settings.validate ⟨12, 128, true⟩ = .ok ⟨16, 128, true⟩ := by decide +kernel
  have hobeys : ((start ⟨12, 128, true⟩ 4096).map <| obeys honest
      [.allocate 20, .allocate 5, .write 16 3 ⟨#[9, 9]⟩, .release 48, .reallocate 16 30]) =
        .ok true := by decide +kernel
  obtain ⟨c₀, hstart, hrun⟩ := honest_run_shaped 4096 hvalid
  rw [hstart] at hobeys
  obtain ⟨c, bs, hc, hsize, hshape⟩ := hrun _ (Except.ok.inj hobeys)
  exact ⟨c₀, c, bs, hstart, hc, hsize, hshape⟩

end Client

end BoundaryTag
