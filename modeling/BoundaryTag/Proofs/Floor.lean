import BoundaryTag.Proofs.Checking
import BoundaryTag.Proofs.Client

/-!
# The size floor

Every block has at least `minBlock` bytes, with one exception: settings may ask for chunks of at most
eight bytes, and then the first block of a heap is below the floor until the heap grows. The checker
reports just that block.
-/

set_option autoImplicit false

namespace BoundaryTag

theorem Settings.chunk_of_validate {s t : Settings} (h : s.validate = .ok t) :
    t.chunk = 8 ∧ s.chunk ≤ 8 ∨ 16 ≤ t.chunk ∧ 9 ≤ s.chunk := by
  obtain ⟨hw, rfl⟩ := validate_eq_ok_iff.1 h
  have hchunk := hw.chunk
  simp only [rounded, wholeChunk]
  omega

namespace Outline

variable {o o' : Outline} {s : Settings} {b : Block} {want bp : Nat}

/-- Every block could stand as a free one, or there is nothing but a first chunk of eight bytes. -/
def Floored (s : Settings) (o : Outline) : Prop :=
  o.Roomy ∨ s.chunk = 8 ∧ o.blocks = [⟨16, 8, false⟩]

theorem Floored.supply (h : o.Floored s) (hw : 16 ≤ want) (hsupply : o.supply s want = some (b, o')) :
    o'.Roomy := by
  have hbytes : 16 ≤ max want s.chunk := Nat.le_trans hw (Nat.le_max_left _ _)
  rcases h with hroomy | ⟨-, hseed⟩
  · rcases supply_cases hsupply with ⟨-, rfl⟩ | ⟨-, -, -, rfl⟩
    · exact hroomy
    · exact extend_roomy hroomy hbytes
  · -- The small first block serves no request, and the first growth joins it with the new bytes.
    rcases supply_cases hsupply with ⟨hfind, -⟩ | ⟨-, -, -, rfl⟩
    · obtain ⟨hmem, -, hlarge⟩ := find?_some hfind
      rw [hseed] at hmem
      rw [List.mem_singleton.1 hmem] at hlarge
      dsimp only at hlarge
      omega
    · intro c hc
      simp only [extend, append, merge, hseed, List.singleton_append, joinFree, List.foldr_cons,
        List.foldr_nil, Block.attach, Bool.or_self, Bool.false_eq_true, if_false,
        List.mem_singleton] at hc
      rw [hc]
      dsimp only
      omega

theorem Floored.allocate (h : o.Floored s) (size : Nat) :
    o.allocate s size = (none, o) ∨ ∃ bp o', o.allocate s size = (some bp, o') ∧ o'.Roomy := by
  rcases allocate_cases s size o with hnone | ⟨want, b, m, -, hwant, hsupply, hsome⟩
  · exact .inl hnone
  · have hw := (bounds_of_blockSizeFor hwant).1
    exact .inr ⟨b.bp, _, hsome, occupy_roomy (h.supply hw hsupply) hw⟩

theorem Floored.roomy_of_held (h : o.Floored s) (hbp : bp ∈ o.held) : o.Roomy := by
  rcases h with hroomy | ⟨-, hseed⟩
  · exact hroomy
  · simp [held, inUse, hseed] at hbp

theorem Floored.after (h : o.Floored s) (act : Act) : (o.after s act).Floored s := by
  cases act with
  | allocate size =>
    rcases h.allocate size with hnone | ⟨bp, o', hsome, hroomy⟩
    · rw [Outline.after, hnone]
      exact h
    · rw [Outline.after, hsome]
      exact .inl hroomy
  | release bp =>
    rw [Outline.after]
    split
    · next hbp => exact .inl (release_roomy (h.roomy_of_held hbp))
    · exact h
  | reallocate bp size =>
    rw [Outline.after]
    split
    · rw [Outline.reallocate]
      split
      · exact h
      · rcases h.allocate size with hnone | ⟨moved, o', hsome, hroomy⟩
        · rw [hnone]
          exact h
        · rw [hsome]
          exact .inl (release_roomy hroomy)
    · exact h
  | write bp start data => exact h

theorem Floored.afterAll (h : o.Floored s) (acts : List Act) :
    (acts.foldl (Outline.after s) o).Floored s := by
  induction acts generalizing o with
  | nil => exact h
  | cons act acts ih => exact ih (h.after act)

theorem bare_extend_floored {t : Settings} (ht : t.chunk = 8 ∨ 16 ≤ t.chunk) :
    (bare.extend t.chunk).Floored t := by
  rcases ht with ht | ht
  · refine .inr ⟨ht, ?_⟩
    rw [bare_extend_blocks, ht]
  · left
    intro b hb
    rw [bare_extend_blocks, List.mem_singleton] at hb
    rw [hb]
    exact ht

theorem Floored.top_eq (h : o.Floored s) (hv : o.Valid) (htop : o.top = 24) :
    s.chunk = 8 ∧ o.blocks = [⟨16, 8, false⟩] := by
  rcases h with hroomy | hseed
  · have habut := hv.abut
    rw [htop] at habut
    cases hblocks : o.blocks with
    | nil =>
      rw [hblocks] at habut
      cases habut
    | cons b bs =>
      rw [hblocks] at habut
      have hb := hroomy b (by simp [hblocks])
      have hbp := habut.1
      have hle := habut.2.le
      simp only [Block.stop] at hle
      omega
  · exact hseed

end Outline

namespace Client

theorem run_floored {rule : Client → Act → Bool} {s t : Settings} (base : Nat)
    (hs : s.validate = .ok t) (hrule : Bearable rule t.checked) :
    ∃ c₀, start s base = .ok c₀ ∧ c₀.heap.size = 16 + t.chunk ∧ ∀ acts, obeys rule acts c₀ = true →
      ∃ c o, run acts c₀ = .ok c ∧ c.Sound o ∧ o.Floored t ∧ c.heap.arena.base = base ∧
        c.heap.live.isSome = t.checked := by
  obtain ⟨c₀, hstart, hc₀, hsettings₀, hbase₀, hlive₀⟩ := start_follows base hs
  have hchunk : t.chunk = 8 ∨ 16 ≤ t.chunk := by
    have := Settings.chunk_of_validate hs
    omega
  refine ⟨c₀, hstart, hc₀.heap.depicts.size, fun acts hobeys => ?_⟩
  obtain ⟨c, hrun, hc, hk⟩ := run_follows hrule hc₀ hlive₀ hobeys
  rw [hsettings₀] at hc
  exact ⟨c, _, hrun, hc, (Outline.bare_extend_floored hchunk).afterAll acts, hk.base.trans hbase₀,
    hk.tracked.trans hlive₀⟩

/-- However a client uses the blocks it holds, no block is below the floor and the checker has nothing
to report, except where the chunk is at most eight bytes and the heap has not grown yet: there the one
block of the heap is below the floor and the checker reports it. -/
theorem honest_run_floored {s t : Settings} {base : Nat} (hs : s.validate = .ok t)
    (hbase : base % 8 = 0) :
    ∃ c₀, start s base = .ok c₀ ∧ ∀ acts, obeys honest acts c₀ = true →
      ∃ c bs, run acts c₀ = .ok c ∧ c.heap.blocks = .ok bs ∧
        if s.chunk ≤ 8 ∧ c.heap.size = c₀.heap.size then
          bs = [⟨16, 8, false⟩] ∧ c.heap.faults = .ok [.badSize 16 8]
        else (∀ b ∈ bs, minBlock ≤ b.size) ∧ c.heap.faults = .ok [] := by
  have hchunk := Settings.chunk_of_validate hs
  obtain ⟨c₀, hstart, hsize₀, hruns⟩ := run_floored base hs (honest_bearable t.checked)
  refine ⟨c₀, hstart, fun acts hobeys => ?_⟩
  obtain ⟨c, o, hrun, hc, hfloor, hplace, -⟩ := hruns acts hobeys
  have hv := hc.heap.valid
  have hsize : c.heap.size = o.top := hc.heap.depicts.size
  have haligned : c.heap.arena.base % 8 = 0 := by rw [hplace, hbase]
  have hfaults := Heap.faults_of_depicts hc.heap.depicts hv haligned
  refine ⟨c, o.blocks, hrun, hc.heap.depicts.blocks hv.toLaid, ?_⟩
  split
  · next hseed =>
    obtain ⟨-, hblocks⟩ := hfloor.top_eq hv (by omega)
    rw [hblocks] at hfaults
    exact ⟨hblocks, hfaults⟩
  · next hgrown =>
    rcases hfloor with hroomy | ⟨hsmall, hblocks⟩
    · exact ⟨hroomy, Heap.faultless_of_depicts hc.heap.depicts hv hroomy haligned⟩
    · have habut := hv.abut
      rw [hblocks] at habut
      have htop : 16 + 8 = o.top := habut.2
      omega

theorem grown_run_floored : ∃ c₀ c bs, start ⟨5, 128, true⟩ 4096 = .ok c₀ ∧
    run [.allocate 20, .allocate 5, .write 16 3 ⟨#[9, 9]⟩, .release 16] c₀ = .ok c ∧
      c.heap.blocks = .ok bs ∧
        if 5 ≤ 8 ∧ c.heap.size = c₀.heap.size then
          bs = [⟨16, 8, false⟩] ∧ c.heap.faults = .ok [.badSize 16 8]
        else (∀ b ∈ bs, minBlock ≤ b.size) ∧ c.heap.faults = .ok [] := by
  have hvalid : Settings.validate ⟨5, 128, true⟩ = .ok ⟨8, 128, true⟩ := by decide +kernel
  have hobeys : ((start ⟨5, 128, true⟩ 4096).map <| obeys honest
      [.allocate 20, .allocate 5, .write 16 3 ⟨#[9, 9]⟩, .release 16]) = .ok true := by
    decide +kernel
  obtain ⟨c₀, hstart, hrun⟩ := honest_run_floored hvalid (show 4096 % 8 = 0 by decide)
  rw [hstart] at hobeys
  obtain ⟨c, bs, hc, hfloor⟩ := hrun _ (Except.ok.inj hobeys)
  exact ⟨c₀, c, bs, hstart, hc, hfloor⟩

theorem small_chunk_below_floor : Settings.validate ⟨8, 64, false⟩ = .ok ⟨8, 64, false⟩ ∧
    (start ⟨8, 64, false⟩ 4096).map (fun c => (c.heap.blocks, c.heap.faults)) =
      .ok (.ok [⟨16, 8, false⟩], .ok [.badSize 16 8]) := by
  -- Settings that are accepted and yield a heap that the checker faults as it is created.
  decide +kernel

end Client

end BoundaryTag
