import BoundaryTag.Proofs.Allocating

/-!
# Allocations without releases

As long as nothing is released, the blocks in use lie at the bottom of the heap in the order in which
they were handed out, each where the one before it ends, and one free block at most is left above them.
A request is served from the lower end of that block, or of what becomes of it when the heap grows.
-/

set_option autoImplicit false

namespace BoundaryTag

open HeapM

namespace Outline

variable {o m : Outline} {s : Settings} {b : Block} {taken : List Block} {size want : Nat}

structure Piled (o : Outline) (taken : List Block) : Prop where
  allocated : ∀ b ∈ taken, b.allocated = true
  blocks : o.blocks = taken ∨ ∃ b, b.allocated = false ∧ o.blocks = taken ++ [b]

theorem Piled.last (hp : o.Piled taken) (hb : b ∈ o.blocks) (hfree : b.allocated = false) :
    o.blocks = taken ++ [b] := by
  have hout : b ∉ taken := fun hmem => by simp [hp.allocated b hmem] at hfree
  rcases hp.blocks with hblocks | ⟨c, -, hblocks⟩
  · exact absurd (hblocks ▸ hb) hout
  · rw [hblocks, List.mem_append, List.mem_singleton] at hb
    obtain rfl := hb.resolve_left hout
    exact hblocks

theorem Piled.extend (hp : o.Piled taken) (hv : o.Valid) {bytes : Nat}
    (hb : 8 ≤ bytes ∧ bytes % 8 = 0) : (o.extend bytes).blocks = taken ++ [o.crown bytes] := by
  obtain ⟨xs, hblocks, ⟨hxs, -⟩ | ⟨c, hxs, hfree, -⟩⟩ := extend_blocks bytes hv
  · rcases hp.blocks with htaken | ⟨d, hd, htaken⟩
    · rw [hblocks, ← hxs, htaken]
    · -- a free block at the top does not stay beside the new one
      have hap := (extend_valid hv.toLaid hb).apart
      have hcrown := (crown_mem bytes hv).2.1
      rw [hblocks, ← hxs, htaken] at hap
      have hseam := (List.isChain_append.1 hap).2.2 d (by simp) _ rfl
      simp [hd, hcrown] at hseam
  · have hlast := hp.last (hxs ▸ List.mem_append_right _ List.mem_cons_self) hfree
    rw [hblocks, List.append_cancel_right (hxs.symm.trans hlast)]

theorem Piled.supply (hp : o.Piled taken) (hs : s.Accepted) (hv : o.Valid)
    (hw : 16 ≤ want ∧ want % 8 = 0 ∧ want ≤ maxBlock) (h : o.supply s want = some (b, m)) :
    m.blocks = taken ++ [b] := by
  obtain ⟨hlow, hmod, -⟩ := growth_bounds hs hw
  rcases supply_cases h with ⟨hfind, rfl⟩ | ⟨-, -, rfl, rfl⟩
  · obtain ⟨hmem, hfree, -⟩ := find?_some hfind
    exact hp.last hmem hfree
  · exact hp.extend hv ⟨hlow, hmod⟩

theorem piled_occupy (htaken : ∀ c ∈ taken, c.allocated = true) (hl : m.Laid)
    (hblocks : m.blocks = taken ++ [b]) (want : Nat) :
    (m.occupy b want).Piled (taken ++ [⟨b.bp, b.share want, true⟩]) := by
  have habut := hl.abut
  have hsized := hl.sized
  rw [hblocks] at habut hsized
  have hoccupied : (m.occupy b want).blocks = taken ++ b.carved want := by
    show recut b.bp (Block.carved want) m.blocks = _
    rw [hblocks, recut_middle habut hsized, List.append_nil]
  refine ⟨fun c hc => ?_, ?_⟩
  · rcases List.mem_append.1 hc with hc | hc
    · exact htaken c hc
    · rw [List.mem_singleton.1 hc]
  · rw [hoccupied, Block.carved, Block.share]
    split
    · exact .inr ⟨⟨b.bp + want, b.size - want, false⟩, rfl, by simp⟩
    · exact .inl rfl

theorem Piled.allocate (hp : o.Piled taken) (hs : s.Accepted) (hv : o.Valid)
    (htop : o.top ≤ s.limit) (size : Nat) :
    o.allocate s size = (none, o) ∨
      ∃ c o', o.allocate s size = (some c.bp, o') ∧ o'.Piled (taken ++ [c]) := by
  rcases allocate_cases s size o with hnone | ⟨want, b, m, -, hwant, hsupply, hsome⟩
  · exact .inl hnone
  · obtain ⟨hw, hw8, hwmax, -⟩ := bounds_of_blockSizeFor hwant
    have hm := supplied hs hv htop ⟨hw, hw8, hwmax⟩ hsupply
    have hblocks := hp.supply hs hv ⟨hw, hw8, hwmax⟩ hsupply
    exact .inr ⟨⟨b.bp, b.share want, true⟩, _, hsome,
      piled_occupy hp.allocated hm.valid.toLaid hblocks want⟩

end Outline

def allocateAll : List Nat → HeapM (List Block)
  | [] => return []
  | size :: sizes => do
    match ← allocate size with
    | none => allocateAll sizes
    | some bp =>
      let tag ← look (·.tagAt bp)
      let later ← allocateAll sizes
      return ⟨bp, tag.size, tag.allocated⟩ :: later

namespace Heap

variable {h : Heap} {o : Outline} {taken : List Block}

/-- The blocks `taken` lie one upon another from the first position on, and the heap lists just them
and one free block at most, which reaches the top. -/
structure Piled (h : Heap) (taken : List Block) : Prop where
  allocated : ∀ b ∈ taken, b.allocated = true
  ascending : (taken.map Block.bp).Pairwise (· < ·)
  tiled : ∃ stop, Abut 16 taken stop ∧ (h.blocks = .ok taken ∧ stop = h.size ∨
    ∃ left, h.blocks = .ok (taken ++ [⟨stop, left, false⟩]) ∧ stop + left = h.size)

theorem Depicts.piled (hd : h.Depicts o) (hl : o.Laid) (hp : o.Piled taken) : h.Piled taken := by
  have habut := hl.abut
  have hsized := hl.sized
  have hread := hd.blocks hl
  have hsize : h.size = o.top := hd.size
  rcases hp.blocks with hblocks | ⟨⟨bp, left, _⟩, rfl, hblocks⟩
  · rw [hblocks] at habut hsized hread
    exact ⟨hp.allocated, habut.ascending hsized, o.top, habut, .inl ⟨hread, hsize.symm⟩⟩
  · rw [hblocks] at habut hsized hread
    obtain ⟨hlow, hstop⟩ := abut_middle.1 habut
    have hreach : bp + left = h.size := hsize ▸ hstop
    exact ⟨hp.allocated, hlow.ascending (sized_middle.1 hsized).1, bp, hlow,
      .inr ⟨left, hread, hreach⟩⟩

theorem allocate_piles (hs : h.Sound o) (hp : o.Piled taken) (size : Nat) (j : Array Event) :
    (∃ j', BoundaryTag.allocate size ⟨h, j⟩ = .ok none ⟨h, j'⟩) ∨
      ∃ c o' h' j', BoundaryTag.allocate size ⟨h, j⟩ = .ok (some c.bp) ⟨h', j'⟩ ∧
        h'.region.tagAt c.bp = .ok c.tag ∧ h'.Sound o' ∧ o'.Piled (taken ++ [c]) := by
  have hpiles := hp.allocate hs.accepted hs.valid hs.room size
  rcases allocate_run hs size j with ⟨j', hrun, -⟩ | ⟨b, o', h', j', hrun, ho, -, hs', -⟩
  · exact .inl ⟨j', hrun⟩
  · right
    rcases hpiles with hnone | ⟨c, o₁, hsome, hp'⟩
    · rw [ho] at hnone
      cases hnone
    · rw [ho] at hsome
      obtain ⟨hbp, rfl⟩ := Prod.mk.inj hsome
      have hmem : c ∈ o'.blocks := by
        rcases hp'.blocks with hblocks | ⟨d, -, hblocks⟩ <;> simp [hblocks]
      rw [hbp] at hrun
      exact ⟨c, o', h', j', hrun, hs'.depicts.tagAt hs'.valid.toLaid hmem, hs', hp'⟩

theorem allocateAll_piles {sizes : List Nat} (hs : h.Sound o) (hp : o.Piled taken)
    (j : Array Event) : ∃ more n o', allocateAll sizes ⟨h, j⟩ = .ok more n ∧ n.heap.Sound o' ∧
      o'.Piled (taken ++ more) := by
  induction sizes generalizing h o taken j with
  | nil => exact ⟨[], ⟨h, j⟩, o, rfl, hs, by rwa [List.append_nil]⟩
  | cons size sizes ih =>
    rcases allocate_piles hs hp size j with ⟨j', hrun⟩ | ⟨c, o₁, h₁, j₁, hrun, htag, hs₁, hp₁⟩
    · obtain ⟨more, n, o', hmore, hs', hp'⟩ := ih hs hp j'
      refine ⟨more, n, o', ?_, hs', hp'⟩
      rw [allocateAll, bind_ok hrun]
      exact hmore
    · obtain ⟨more, n, o', hmore, hs', hp'⟩ := ih hs₁ hp₁ j₁
      refine ⟨c :: more, n, o', ?_, hs', by rwa [List.append_assoc] at hp'⟩
      rw [allocateAll, bind_ok hrun]
      show (look (·.tagAt c.bp) >>= _) ⟨h₁, j₁⟩ = _
      rw [bind_ok (look_run htag j₁), bind_ok hmore]
      rfl

/-- Whatever is asked of a new heap, without releases the blocks handed out pile up in their order. -/
theorem allocations_pile_up {s t : Settings} (base : Nat) (hs : s.validate = .ok t) :
    ∃ n₀, Heap.create s (.ok base) = .ok n₀ ∧ ∀ sizes, ∃ taken n,
      allocateAll sizes n₀ = .ok taken n ∧ n.heap.Piled taken := by
  obtain ⟨n₀, hcreate, hsound, -⟩ := create_sound base hs
  have hempty : (Outline.bare.extend t.chunk).Piled [] :=
    ⟨by simp, .inr ⟨_, rfl, Outline.bare_extend_blocks t.chunk⟩⟩
  refine ⟨n₀, hcreate, fun sizes => ?_⟩
  obtain ⟨taken, n, o, hrun, hs', hp⟩ := allocateAll_piles hsound hempty n₀.journal
  exact ⟨taken, n, hrun, hs'.depicts.piled hs'.valid.toLaid hp⟩

theorem growing_allocations_pile_up : ∃ n₀ n, Heap.create ⟨12, 128, true⟩ (.ok 4096) = .ok n₀ ∧
    allocateAll [20, 1000, 5, 0, 30] n₀ =
      .ok [⟨16, 32, true⟩, ⟨48, 16, true⟩, ⟨64, 40, true⟩] n ∧
    n.heap.Piled [⟨16, 32, true⟩, ⟨48, 16, true⟩, ⟨64, 40, true⟩] := by
  -- A heap that grows twice; the second and the fourth request are refused.
  have hvalid : Settings.validate ⟨12, 128, true⟩ = .ok ⟨16, 128, true⟩ := by decide +kernel
  have hcheck : ((Heap.create ⟨12, 128, true⟩ (.ok 4096)).map fun n₀ =>
      (outcome (allocateAll [20, 1000, 5, 0, 30] n₀)).1) =
        .ok (.ok [⟨16, 32, true⟩, ⟨48, 16, true⟩, ⟨64, 40, true⟩]) := by
    decide +kernel
  obtain ⟨n₀, hcreate, hpile⟩ := allocations_pile_up 4096 hvalid
  obtain ⟨taken, n, hrun, hpiled⟩ := hpile [20, 1000, 5, 0, 30]
  have htaken : taken = [⟨16, 32, true⟩, ⟨48, 16, true⟩, ⟨64, 40, true⟩] := by
    simpa [Except.map, outcome, hcreate, hrun] using hcheck
  exact ⟨n₀, n, hcreate, htaken ▸ hrun, htaken ▸ hpiled⟩

end Heap

end BoundaryTag
