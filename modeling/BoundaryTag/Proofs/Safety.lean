import BoundaryTag.Proofs.Checking
import BoundaryTag.Proofs.Releasing

/-!
# Safety of the heaps the checker accepts

However a heap came about, when the checker reports nothing about it, and its live set, if it keeps one,
is that of the allocated blocks, every operation on it ends without a trap, and the checker has nothing
to report afterwards.
-/

set_option autoImplicit false

namespace BoundaryTag

namespace Heap

variable {h h' : Heap} {o o' : Outline} {ks : List Block}

def ListsAllocated (h : Heap) (bp : Nat) : Prop :=
  ∃ bs, h.blocks = .ok bs ∧ ∃ b ∈ bs, b.allocated = true ∧ b.bp = bp

theorem listsAllocated_of_blocks {bs : List Block} (hblocks : h.blocks = .ok bs) {bp : Nat} :
    h.ListsAllocated bp ↔ ∃ b ∈ bs, b.allocated = true ∧ b.bp = bp := by
  simp [ListsAllocated, hblocks]

instance (h : Heap) (bp : Nat) : Decidable (h.ListsAllocated bp) :=
  match hblocks : h.blocks with
  | .ok bs => decidable_of_iff (∃ b ∈ bs, b.allocated = true ∧ b.bp = bp) (by
      simp [ListsAllocated, hblocks])
  | .error t => isFalse (by simp [ListsAllocated, hblocks])

theorem listsAllocated_iff (hd : h.Depicts o) (hl : o.Laid) {bp : Nat} :
    h.ListsAllocated bp ↔ bp ∈ o.held := by
  rw [Outline.mem_held]
  exact listsAllocated_of_blocks (hd.blocks hl)

/-- The checker has nothing to report about the heap, and its settings and its arena go together. The
arena is reserved at the limit of the settings when a heap is created, and no operation changes its
capacity. -/
structure Intact (h : Heap) : Prop where
  settings : ∃ s : Settings, s.validate = .ok h.settings
  capacity : h.arena.capacity = h.settings.limit
  size : h.size ≤ h.settings.limit
  faultless : h.faults = .ok []

/-- The live set, where there is one, is that of the blocks listed as allocated. -/
structure Certified (h : Heap) : Prop extends Intact h where
  tracked : ∀ live, h.live = some live → ∀ bp, bp ∈ live ↔ h.ListsAllocated bp

theorem Certified.sound (hc : h.Certified) : ∃ o, h.Sound o ∧ o.Roomy ∧ h.arena.base % 8 = 0 := by
  obtain ⟨s, hs⟩ := hc.settings
  obtain ⟨o, hd, hv, hr, hbase⟩ := depicts_of_faultless hc.faultless
  have htop : o.top ≤ h.settings.limit := hd.size ▸ hc.size
  have htracks : ∀ live, h.live = some live → ∀ x, x ∈ live ↔ x ∈ o.held := by
    intro live hl x
    rw [hc.tracked live hl x, listsAllocated_iff hd hv.toLaid]
  have haccepted := (Settings.accepted_of_validate hs).1
  exact ⟨o, ⟨hd, hv, haccepted, hc.capacity, htop, htracks⟩, hr, hbase⟩

theorem Keeps.faultless (hk : h.Keeps h' ks) (hbase : h.arena.base % 8 = 0) (hs : h'.Sound o')
    (hr : o'.Roomy) : h'.faults = .ok [] :=
  faultless_of_depicts hs.depicts hs.valid hr (by rw [hk.base]; exact hbase)

theorem allocate_faultless (hs : h.Sound o) (hr : o.Roomy) (hbase : h.arena.base % 8 = 0)
    (size : Nat) (j : Array Event) :
    ∃ found n, BoundaryTag.allocate size ⟨h, j⟩ = .ok found n ∧ n.heap.faults = .ok [] := by
  rcases allocate_run hs size j with ⟨j', hrun, -⟩ | ⟨c, o', h', j', hrun, -, hg, hs', hk⟩
  · exact ⟨none, ⟨h, j'⟩, hrun, (Keeps.refl h []).faultless hbase hs hr⟩
  · exact ⟨some c.bp, ⟨h', j'⟩, hrun, hk.faultless hbase hs' (hg.roomy hr)⟩

theorem release_faultless (hs : h.Sound o) (hr : o.Roomy) (hbase : h.arena.base % 8 = 0)
    {bp : Nat} (hbp : bp ∈ o.held) (j : Array Event) :
    ∃ n, BoundaryTag.release bp ⟨h, j⟩ = .ok () n ∧ n.heap.faults = .ok [] := by
  obtain ⟨h', j', hrun, hs', hk⟩ := release_run hs hbp j
  exact ⟨⟨h', j'⟩, hrun, hk.faultless hbase hs' (Outline.release_roomy hr)⟩

theorem reallocate_faultless (hs : h.Sound o) (hr : o.Roomy) (hbase : h.arena.base % 8 = 0)
    {bp : Nat} (hbp : bp ∈ o.held) (size : Nat) (j : Array Event) :
    (∃ moved n, BoundaryTag.reallocate bp size ⟨h, j⟩ = .ok moved n ∧ n.heap.faults = .ok []) ∨
    ∃ why n, BoundaryTag.reallocate bp size ⟨h, j⟩ = .error (.refused why) n ∧
      n.heap.faults = .ok [] := by
  rcases reallocate_run hs hbp size j with
    ⟨why, j', hrun, -⟩ | ⟨c, o₁, h', j', hrun, -, hg, hs', hk, -⟩
  · right
    exact ⟨why, ⟨h, j'⟩, hrun, (Keeps.refl h []).faultless hbase hs hr⟩
  · left
    exact ⟨c.bp, ⟨h', j'⟩, hrun, hk.faultless hbase hs' (Outline.release_roomy (hg.roomy hr))⟩

/-- The end of a block is computed unchecked: no sum of a position in a region and a size read there
leaves the 64-bit range. -/
theorem reach_lt_addressLimit {r : Region} {bp : Nat} {tag : Tag} (hr : r.size ≤ maxBlock)
    (htag : r.tagAt bp = .ok tag) : bp + tag.size < addressLimit := by
  have hreach := Region.reach_le htag
  simp only [maxBlock] at hr hreach
  simp only [addressLimit]
  omega

/-- On every heap that the checker accepts and whose live set, if any, fits its tags, whatever its bytes
and its cursor, each operation ends without a trap, a refused one included, and leaves a heap that the
checker accepts. Nor do the unchecked sums overflow on any region that the arena can grant. -/
theorem operations_faultless (hc : h.Certified) (j : Array Event) :
    (∀ size, ∃ found n, BoundaryTag.allocate size ⟨h, j⟩ = .ok found n ∧
      n.heap.faults = .ok []) ∧
    (∀ bp, h.ListsAllocated bp →
      (∃ n, BoundaryTag.release bp ⟨h, j⟩ = .ok () n ∧ n.heap.faults = .ok []) ∧
      ∀ size,
        (∃ moved n, BoundaryTag.reallocate bp size ⟨h, j⟩ = .ok moved n ∧
          n.heap.faults = .ok []) ∨
        ∃ why n, BoundaryTag.reallocate bp size ⟨h, j⟩ = .error (.refused why) n ∧
          n.heap.faults = .ok []) ∧
    ∀ r : Region, r.size ≤ h.arena.capacity → ∀ bp tag, r.tagAt bp = .ok tag →
      bp + tag.size < addressLimit := by
  obtain ⟨o, hsound, hr, hbase⟩ := hc.sound
  refine ⟨?_, ?_, ?_⟩
  · intro size
    exact allocate_faultless hsound hr hbase size j
  · intro bp hlist
    have hbp : bp ∈ o.held := (listsAllocated_iff hsound.depicts hsound.valid.toLaid).1 hlist
    constructor
    · exact release_faultless hsound hr hbase hbp j
    · intro size
      exact reallocate_faultless hsound hr hbase hbp size j
  · intro r hle bp tag htag
    have hmax : r.size ≤ maxBlock :=
      Nat.le_trans (hc.capacity ▸ hle) hsound.accepted.limit
    exact reach_lt_addressLimit hmax htag

/-- Bytes that no run has written: unused bits are set in the tags of the prologue and of the free
block. -/
def strewn : Heap where
  arena := ⟨4096, ⟨⟨#[7, 7, 7, 7, 11, 0, 0, 0, 11, 0, 0, 0, 17, 0, 0, 0, 1, 2, 3, 4, 5, 6, 7, 8,
    17, 0, 0, 0, 20, 0, 0, 0, 16, 0, 0, 0, 16, 0, 0, 0, 20, 0, 0, 0, 1, 0, 0, 0]⟩⟩,
    ⟨ByteArray.empty⟩, 64⟩
  settings := ⟨16, 64, true⟩
  cursor := 32
  live := some ⟨[16], List.pairwise_singleton _ _⟩

theorem strewn_certified : strewn.Certified where
  settings := ⟨⟨16, 64, true⟩, by decide +kernel⟩
  capacity := rfl
  size := by decide +kernel
  faultless := by decide +kernel
  tracked := by
    intro live hl bp
    have hblocks : strewn.blocks = .ok [⟨16, 16, true⟩, ⟨32, 16, false⟩] := by decide +kernel
    obtain rfl := Option.some.inj hl
    rw [listsAllocated_of_blocks hblocks]
    show bp ∈ [16] ↔ _
    simp [@eq_comm _ _ bp]

theorem strewn_operations_faultless :
    strewn.Certified ∧
    (∀ size, ∃ found n, BoundaryTag.allocate size ⟨strewn, #[]⟩ = .ok found n ∧
      n.heap.faults = .ok []) ∧
    (∀ bp, strewn.ListsAllocated bp →
      (∃ n, BoundaryTag.release bp ⟨strewn, #[]⟩ = .ok () n ∧ n.heap.faults = .ok []) ∧
      ∀ size,
        (∃ moved n, BoundaryTag.reallocate bp size ⟨strewn, #[]⟩ = .ok moved n ∧
          n.heap.faults = .ok []) ∨
        ∃ why n, BoundaryTag.reallocate bp size ⟨strewn, #[]⟩ = .error (.refused why) n ∧
          n.heap.faults = .ok []) ∧
    ∀ r : Region, r.size ≤ strewn.arena.capacity → ∀ bp tag, r.tagAt bp = .ok tag →
      bp + tag.size < addressLimit := by
  exact ⟨strewn_certified, operations_faultless strewn_certified #[]⟩

end Heap

end BoundaryTag
