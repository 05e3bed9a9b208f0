import BoundaryTag.Proofs.Client

/-!
# Allocating and releasing at once

A block that is released as soon as it has been handed out leaves no trace in the list of blocks: a
split is undone, slack is given back, and of a growth only the new bytes stay, as free space at the top.
-/

set_option autoImplicit false

namespace BoundaryTag

/-- The blocks of a heap with `bytes` more at its top: the last block is larger by these where it is
free, and else one free block follows it. -/
def enlarge (top bytes : Nat) (bs : List Block) : List Block :=
  match bs.getLast? with
  | some b =>
    if b.allocated then bs ++ [⟨top, bytes, false⟩]
    else bs.dropLast ++ [⟨b.bp, b.size + bytes, false⟩]
  | none => [⟨top, bytes, false⟩]

theorem freeSum_enlarge (top bytes : Nat) (bs : List Block) :
    freeSum (enlarge top bytes bs) = freeSum bs + bytes := by
  have hnil : freeSum [] = 0 := rfl
  rcases List.eq_nil_or_concat bs with rfl | ⟨ys, b, rfl⟩
  · simp [enlarge, freeSum]
  · simp only [enlarge, List.concat_eq_append, List.getLast?_concat, List.dropLast_concat]
    cases hb : b.allocated with
    | true =>
      simp only [if_true, freeSum_append, freeSum_cons, hb, Bool.false_eq_true, if_false]
      omega
    | false =>
      simp only [Bool.false_eq_true, if_false, freeSum_append, freeSum_cons, hb]
      omega

namespace Outline

variable {o o' : Outline} {s : Settings} {b : Block} {size want bp : Nat}

theorem extend_eq_enlarge {bytes : Nat} (hv : o.Valid) (hb : 8 ≤ bytes ∧ bytes % 8 = 0) :
    (o.extend bytes).blocks = enlarge o.top bytes o.blocks := by
  obtain ⟨xs, hblocks, hcase⟩ := extend_blocks bytes hv
  rcases hcase with ⟨rfl, hcrown⟩ | ⟨b, hsplit, hfree, hcrown⟩
  · rw [hblocks, hcrown]
    rcases List.eq_nil_or_concat o.blocks with hnil | ⟨ys, b, hlast⟩
    · simp [enlarge, hnil]
    · -- the block in front of a free one is allocated
      have hap := (extend_valid hv.toLaid hb).apart
      rw [hblocks] at hap
      have hfront := (apart_around hap (crown_mem bytes hv).2.1).2.1
      have halloc : b.allocated = true := hfront b (by simp [hlast])
      simp [enlarge, hlast, halloc]
  · simp [enlarge, hblocks, hcrown, hsplit, hfree]

theorem release_occupy (hv : o.Valid) (hb : b ∈ o.blocks) (hfree : b.allocated = false)
    (hw : 16 ≤ want ∧ want % 8 = 0) (hle : want ≤ b.size) :
    ((o.occupy b want).release b.bp).blocks = o.blocks := by
  obtain ⟨xs, ys, hsplit, hrecut⟩ := hv.split hb
  obtain ⟨rest, hcarved, hrest⟩ := carved_eq want b
  have hblocks : (o.occupy b want).blocks = xs ++ ⟨b.bp, b.share want, true⟩ :: (rest ++ ys) := by
    rw [occupy_blocks want hrecut, hcarved, List.cons_append]
  have hvalid := occupy_valid hv hb hfree hw hle
  have habut := hvalid.abut
  have hsized := hvalid.sized
  rw [hblocks] at habut hsized
  have hunmark : ((o.occupy b want).unmark b.bp).blocks =
      xs ++ (⟨b.bp, b.share want, false⟩ :: rest) ++ ys := by
    show recut b.bp (fun c => [c.freed]) (o.occupy b want).blocks = _
    rw [hblocks, recut_middle habut hsized]
    simp [Block.freed]
  have hmid : Abut b.bp (⟨b.bp, b.share want, false⟩ :: rest) b.stop := by
    have hspan := abut_carved hle
    rw [hcarved] at hspan
    exact hspan
  have hallfree : ∀ c ∈ (⟨b.bp, b.share want, false⟩ : Block) :: rest, c.allocated = false := by
    intro c hc
    rcases List.mem_cons.1 hc with rfl | hc
    · rfl
    · exact hrest c hc
  have hap := hv.apart
  rw [hsplit] at hap
  obtain ⟨hxs, hlast, hys, hhead⟩ := apart_around hap hfree
  have hwhole : (⟨b.bp, b.stop - b.bp, false⟩ : Block) = b := by
    rw [Block.stop, Nat.add_sub_cancel_left, ← hfree]
  show joinFree ((o.occupy b want).unmark b.bp).blocks = _
  rw [hunmark, joinFree_middle hmid (by simp) hallfree hxs hlast hys hhead, hwhole, hsplit]

theorem release_allocate (hs : s.Accepted) (hv : o.Valid) (htop : o.top ≤ s.limit)
    (h : o.allocate s size = (some bp, o')) :
    o'.top = o.top ∧ (o'.release bp).blocks = o.blocks ∨
      ∃ bytes, 0 < bytes ∧ o'.top = o.top + bytes ∧
        (o'.release bp).blocks = enlarge o.top bytes o.blocks := by
  rcases allocate_cases s size o with hnone | ⟨want, b, m, -, hwant, hsupply, hsome⟩
  · rw [hnone] at h
    cases h
  · rw [hsome] at h
    obtain ⟨hbp, rfl⟩ := Prod.mk.inj h
    obtain rfl := Option.some.inj hbp
    obtain ⟨hw, hw8, hwmax, -⟩ := bounds_of_blockSizeFor hwant
    have hm := supplied hs hv htop ⟨hw, hw8, hwmax⟩ hsupply
    have hback := release_occupy hm.valid hm.mem hm.free ⟨hw, hw8⟩ hm.large
    obtain ⟨hlow, hmod, -⟩ := growth_bounds hs ⟨hw, hw8, hwmax⟩
    rw [hback]
    rcases supply_cases hsupply with ⟨-, rfl⟩ | ⟨-, -, -, rfl⟩
    · exact .inl ⟨rfl, rfl⟩
    · have hgrown := extend_eq_enlarge hv ⟨hlow, hmod⟩
      exact .inr ⟨max want s.chunk, by omega, rfl, hgrown⟩

end Outline

namespace Heap

/-- `h` is a heap with the blocks `bs`, `h₁` the heap after an allocation on it, and `h₂` the heap after
the block handed out has been released: unless the heap has grown, the blocks are those of before, and
else the new bytes are free as well. -/
structure Undone (h h₁ h₂ : Heap) (bs : List Block) : Prop where
  rises : h.size ≤ h₁.size
  size : h₂.size = h₁.size
  freeBytes : h.freeBytes = .ok (freeSum bs)
  same : h₁.size = h.size → h₂.blocks = .ok bs ∧ h₂.freeBytes = h.freeBytes
  grown : ∀ bytes, 0 < bytes → h₁.size = h.size + bytes →
    h₂.blocks = .ok (enlarge h.size bytes bs) ∧ h₂.freeBytes = .ok (freeSum bs + bytes)
  payloads : ∀ b ∈ bs, b.allocated = true → ∃ bytes, h.payload b.bp = .ok bytes ∧
    h₂.payload b.bp = .ok bytes

variable {h : Heap} {o : Outline}

theorem undone {h₁ h₂ : Heap} {o₁ : Outline} {c : Block} {size : Nat} (hs : h.Sound o)
    (hs₂ : h₂.Sound (o₁.release c.bp)) (ho : o.allocate h.settings size = (some c.bp, o₁))
    (hg : o.Granted h.settings size c o₁) (hs₁ : h₁.Sound o₁) (hk₁ : h.Keeps h₁ o.inUse)
    (hk₂ : h₁.Keeps h₂ (o₁.release c.bp).inUse) : h.Undone h₁ h₂ o.blocks := by
  have hsize : h.size = o.top := hs.depicts.size
  have hsize₁ : h₁.size = o₁.top := hs₁.depicts.size
  have hblocks := hs.depicts.blocks hs.valid.toLaid
  have hblocks₂ := hs₂.depicts.blocks hs₂.valid.toLaid
  have hback := Outline.release_allocate hs.accepted hs.valid hs.room ho
  constructor
  case rises =>
    rw [hsize, hsize₁]
    exact hg.rises
  case size => exact hs₂.depicts.size.trans hsize₁.symm
  case freeBytes => exact freeBytes_of_blocks hblocks
  case same =>
    intro hsame
    rcases hback with ⟨-, hback⟩ | ⟨bytes, hpos, htop, -⟩
    · rw [hback] at hblocks₂
      exact ⟨hblocks₂, by rw [freeBytes_of_blocks hblocks₂, freeBytes_of_blocks hblocks]⟩
    · omega
  case grown =>
    intro bytes hpos hgrown
    rcases hback with ⟨htop, -⟩ | ⟨bytes', -, htop, hback⟩
    · omega
    · obtain rfl : bytes' = bytes := by omega
      rw [hback, ← hsize] at hblocks₂
      exact ⟨hblocks₂, by rw [freeBytes_of_blocks hblocks₂, freeSum_enlarge]⟩
  case payloads =>
    intro b hb halloc
    have hold : b ∈ o.inUse := Outline.mem_inUse.2 ⟨hb, halloc⟩
    have hkept : b ∈ (o₁.release c.bp).inUse :=
      Outline.mem_release_inUse.2 ⟨hg.old hold, hg.ne_old hold⟩
    have hmem₁ := (Outline.mem_inUse.1 (hg.old hold)).1
    have hsame₁ := hk₁.payload hs hs₁ hold hb hmem₁
    have hsame₂ := hk₂.payload hs₁ hs₂ hkept hmem₁ (Outline.mem_inUse.1 hkept).1
    have hread := hs.depicts.payload hs.valid.toLaid hb
    exact ⟨_, hread, by rw [hsame₂, hsame₁, hread]⟩

end Heap

namespace Client

/-- On whatever heap a client has come to, be it past attempts on blocks that it does not hold, an
allocation always ends, and when it hands out a block the release of that block ends too and undoes it. -/
theorem run_allocation_undone {s t : Settings} (base : Nat) (hs : s.validate = .ok t) :
    ∃ c₀, start s base = .ok c₀ ∧ ∀ acts, obeys permitted acts c₀ = true →
      ∃ c bs, run acts c₀ = .ok c ∧ c.heap.blocks = .ok bs ∧ ∀ size, ∃ found n,
        allocate size c.session = .ok found n ∧ ∀ bp, found = some bp →
          ∃ n', release bp n = .ok () n' ∧ c.heap.Undone n.heap n'.heap bs := by
  obtain ⟨c₀, o₀, hstart, hc₀, -, hlive₀⟩ := start_sound base hs
  refine ⟨c₀, hstart, fun acts hobeys => ?_⟩
  obtain ⟨c, o, hrun, hc, -, -⟩ := run_sound (permitted_bearable t.checked) hc₀ hlive₀ hobeys
  refine ⟨c, o.blocks, hrun, hc.heap.depicts.blocks hc.heap.valid.toLaid, fun size => ?_⟩
  rcases Heap.allocate_run hc.heap size c.session.journal with
    ⟨j, hnone, -⟩ | ⟨b, o₁, h₁, j₁, hsome, ho, hg, hs₁, hk₁⟩
  · exact ⟨none, _, hnone, fun bp hbp => by cases hbp⟩
  · refine ⟨some b.bp, ⟨h₁, j₁⟩, hsome, fun bp hbp => ?_⟩
    obtain rfl := Option.some.inj hbp
    have hheld : b.bp ∈ o₁.held := List.mem_map_of_mem hg.mem
    obtain ⟨h₂, j₂, hrelease, hs₂, hk₂⟩ := Heap.release_run hs₁ hheld j₁
    exact ⟨⟨h₂, j₂⟩, hrelease, Heap.undone hc.heap hs₂ ho hg hs₁ hk₁ hk₂⟩

theorem growing_allocation_undone : ∃ c₀ c bs n n', start ⟨12, 128, true⟩ 4096 = .ok c₀ ∧
    run [.allocate 20, .release 48, .write 16 3 ⟨#[9, 9]⟩] c₀ = .ok c ∧ c.heap.blocks = .ok bs ∧
      allocate 30 c.session = .ok (some 48) n ∧ release 48 n = .ok () n' ∧
        c.heap.Undone n.heap n'.heap bs := by
  -- A request for which the heap has to grow, with a free block at the top, which a client has
  -- tried to release, and a block in use below.
  have hvalid : Settings.validate ⟨12, 128, true⟩ = .ok ⟨16, 128, true⟩ := by decide +kernel
  have hcheck : ((start ⟨12, 128, true⟩ 4096).map fun c₀ =>
      (obeys permitted [.allocate 20, .release 48, .write 16 3 ⟨#[9, 9]⟩] c₀,
        (run [.allocate 20, .release 48, .write 16 3 ⟨#[9, 9]⟩] c₀).map fun c =>
          (outcome (allocate 30 c.session)).1)) = .ok (true, .ok (.ok (some 48))) := by
    decide +kernel
  obtain ⟨c₀, hstart, hrun⟩ := run_allocation_undone 4096 hvalid
  rw [hstart] at hcheck
  obtain ⟨hobeys, hfound⟩ := Prod.mk.inj (Except.ok.inj hcheck)
  obtain ⟨c, bs, hc, hblocks, hundone⟩ := hrun _ hobeys
  obtain ⟨found, n, hallocate, hback⟩ := hundone 30
  rw [hc] at hfound
  have hsome : found = some 48 := by simpa [Except.map, outcome, hallocate] using hfound
  obtain ⟨n', hrelease, hsame⟩ := hback 48 hsome
  exact ⟨c₀, c, bs, n, n', hstart, hc, hblocks, hsome ▸ hallocate, hrelease, hsame⟩

end Client

end BoundaryTag
