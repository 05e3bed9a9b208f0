import BoundaryTag.Proofs.Client
import BoundaryTag.Proofs.Safety

/-!
# Moving a block

A reallocation that succeeds puts the payload where an allocation would have put a new block, and leaves
the place of the old one free and joined with its free neighbours. No other block in use is touched,
wherever the old and the new one lie.
-/

set_option autoImplicit false

namespace BoundaryTag

namespace Outline

variable {o o' : Outline} {s : Settings} {b c : Block} {size : Nat}

theorem Laid.nodup_inUse (h : o.Laid) : o.inUse.Nodup := by
  have hblocks : o.blocks.Nodup := (List.pairwise_map.1 (h.abut.ascending h.sized)).imp
    fun hlt heq => Nat.ne_of_lt hlt (congrArg Block.bp heq)
  exact List.Pairwise.filter _ hblocks

theorem perm_release (h : o.Laid) (hb : b ∈ o.inUse) :
    o.inUse.Perm (b :: (o.release b.bp).inUse) := by
  have hmem := (mem_inUse.1 hb).1
  have hrest := (release_valid h hmem).toLaid.nodup_inUse
  have hnot : b ∉ (o.release b.bp).inUse := fun hin => (mem_release_inUse.1 hin).2 rfl
  apply (List.perm_ext_iff_of_nodup h.nodup_inUse (List.nodup_cons.2 ⟨hnot, hrest⟩)).2
  intro x
  rw [List.mem_cons, mem_release_inUse]
  constructor
  · intro hx
    by_cases hbp : x.bp = b.bp
    · exact .inl (h.abut.eq_of_bp h.sized (mem_inUse.1 hx).1 hmem hbp)
    · exact .inr ⟨hx, hbp⟩
  · rintro (rfl | ⟨hx, -⟩)
    · exact hb
    · exact hx

theorem Granted.perm (hg : o.Granted s size c o') (h : o.Laid) : o'.inUse.Perm (c :: o.inUse) := by
  have hnot : c ∉ o.inUse := fun hin => hg.ne_old hin rfl
  apply (List.perm_ext_iff_of_nodup hg.valid.toLaid.nodup_inUse
    (List.nodup_cons.2 ⟨hnot, h.nodup_inUse⟩)).2
  intro x
  rw [hg.inUse, List.mem_cons]

theorem Granted.length_release (hg : o.Granted s size c o') (h : o.Laid) (hb : b ∈ o.inUse) :
    (o'.release b.bp).inUse.length = o.inUse.length := by
  have hcome := (hg.perm h).length_eq
  have hgo := (perm_release hg.valid.toLaid (hg.old hb)).length_eq
  rw [List.length_cons] at hcome hgo
  omega

end Outline

namespace Heap

variable {h h' : Heap} {o o₁ : Outline} {a c : Block} {size : Nat}

/-- The block `b` of a heap `h` with the blocks `bs` has been given up for one at `moved` with room for
`size` bytes, in the heap `h'` with the blocks `bs'`. -/
structure Moved (h h' : Heap) (bs bs' : List Block) (b : Block) (moved size : Nat) : Prop where
  listed : h'.blocks = .ok bs'
  fresh : moved ≠ b.bp
  placed : ∃ c ∈ bs', c.allocated = true ∧ c.bp = moved ∧ (c.stop ≤ b.bp ∨ b.stop ≤ c.bp)
  copied : ∃ old new, h.payload b.bp = .ok old ∧ h.payloadSize b.bp = .ok old.size ∧
    h'.payload moved = .ok new ∧ h'.payloadSize moved = .ok new.size ∧ size ≤ new.size ∧
      new.extract 0 (min size old.size) = old.extract 0 (min size old.size)
  others : ∀ x ∈ bs, x.allocated = true → x ≠ b → x ∈ bs' ∧
    ∃ bytes, h.payload x.bp = .ok bytes ∧ h'.payload x.bp = .ok bytes ∧
      h.payloadSize x.bp = .ok bytes.size ∧ h'.payloadSize x.bp = .ok bytes.size
  gone : ¬ h'.ListsAllocated b.bp
  freed : ∃ xs f ys, bs' = xs ++ f :: ys ∧ f.allocated = false ∧ f.bp ≤ b.bp ∧ b.stop ≤ f.stop ∧
    (∀ x ∈ xs.getLast?, x.allocated = true) ∧ ∀ y ∈ ys.head?, y.allocated = true
  count : (bs'.filter (·.allocated)).length = (bs.filter (·.allocated)).length

theorem Depicts.reads (hd : h.Depicts o) (hl : o.Laid) {b : Block} (hb : b ∈ o.blocks) :
    ∃ bytes, h.payload b.bp = .ok bytes ∧ h.payloadSize b.bp = .ok bytes.size ∧
      bytes.size = b.size - 8 ∧ ∀ i, i < bytes.size →
        (⟨bytes⟩ : Region).byte i = h.region.byte (b.bp + i) := by
  have hsize := hd.size_payload hl hb
  have hroom := hd.payloadSize hl hb
  rw [← hsize] at hroom
  refine ⟨_, hd.payload hl hb, hroom, hsize, fun i hi => ?_⟩
  exact Region.byte_extract (by omega)

theorem moved (hs : h.Sound o) (ha : a ∈ o.inUse) (hg : o.Granted h.settings size c o₁)
    (hs' : h'.Sound (o₁.release a.bp)) (hk : h.Keeps h' (o.release a.bp).inUse)
    (hcopy : ∀ i, i < min size (a.size - 8) → h'.region.byte (c.bp + i) = h.region.byte (a.bp + i)) :
    h.Moved h' o.blocks (o₁.release a.bp).blocks a c.bp size := by
  have hl := hs.valid.toLaid
  have hl₁ := hg.valid.toLaid
  have hl' := hs'.valid.toLaid
  obtain ⟨hmem, halloc⟩ := Outline.mem_inUse.1 ha
  have hmem₁ := (Outline.mem_inUse.1 (hg.old ha)).1
  have hnew := hg.mem_release (List.mem_map_of_mem ha : a.bp ∈ o.held)
  obtain ⟨hnew', hnewalloc⟩ := Outline.mem_inUse.1 hnew
  have hne : a.bp ≠ c.bp := hg.ne_old ha
  constructor
  case listed => exact hs'.depicts.blocks hl'
  case fresh => exact hne.symm
  case placed =>
    refine ⟨c, hnew', hnewalloc, rfl, ?_⟩
    rcases hl₁.abut.disjoint (Outline.mem_inUse.1 hg.mem).1 hmem₁ with rfl | hapart
    · exact absurd rfl hne
    · exact hapart
  case copied =>
    obtain ⟨old, hold, holdsize, holdroom, holdbyte⟩ := hs.depicts.reads hl hmem
    obtain ⟨new, hnewpayload, hnewsize, hnewroom, hnewbyte⟩ := hs'.depicts.reads hl' hnew'
    have hlarge := hg.large
    refine ⟨old, new, hold, holdsize, hnewpayload, hnewsize, by omega, ?_⟩
    show (⟨new⟩ : Region).bytes.extract 0 _ = (⟨old⟩ : Region).bytes.extract 0 _
    apply Region.extract_congr
    · exact Nat.min_le_right _ _
    · simp only [Region.size]
      omega
    · intro i _ hi
      rw [hnewbyte i (by omega), holdbyte i (by omega)]
      exact hcopy i (by omega)
  case others =>
    intro x hx hxalloc hxa
    have hxuse : x ∈ o.inUse := Outline.mem_inUse.2 ⟨hx, hxalloc⟩
    have hxbp : x.bp ≠ a.bp := fun heq => hxa (hl.abut.eq_of_bp hl.sized hx hmem heq)
    have hkept := Outline.mem_release_inUse.2 ⟨hxuse, hxbp⟩
    have hx' := (Outline.mem_inUse.1 (hg.old_release hkept)).1
    obtain ⟨bytes, hpayload, hsize, hroom, -⟩ := hs.depicts.reads hl hx
    have hsame := hk.payload hs hs' hkept hx hx'
    refine ⟨hx', bytes, hpayload, hsame.trans hpayload, hsize, ?_⟩
    rw [hroom]
    exact hs'.depicts.payloadSize hl' hx'
  case gone =>
    rw [listsAllocated_iff hs'.depicts hl', Outline.mem_release_held]
    exact fun hheld => hheld.1 rfl
  case freed =>
    obtain ⟨f, hf, hfree, hcover⟩ := Outline.release_joins hg.valid hmem₁
    obtain ⟨xs, ys, hsplit⟩ := List.append_of_mem hf
    have hap := hs'.valid.apart
    rw [hsplit] at hap
    obtain ⟨-, hlast, -, hhead⟩ := apart_around hap hfree
    exact ⟨xs, f, ys, hsplit, hfree, hcover.1, hcover.2, hlast, hhead⟩
  case count => exact hg.length_release hl ha

end Heap

namespace Client

/-- On whatever heap a client has come to, each block in use and each size from one byte up: where an
allocation of that size would be refused, the reallocation is refused too and changes nothing, and
else the block moves to where the allocation would have put a new one. -/
theorem run_block_moves {s t : Settings} (base : Nat) (hs : s.validate = .ok t) :
    ∃ c₀, start s base = .ok c₀ ∧ ∀ acts, obeys permitted acts c₀ = true →
      ∃ c bs, run acts c₀ = .ok c ∧ c.heap.blocks = .ok bs ∧
        ∀ b ∈ bs, b.allocated = true → ∀ size, 0 < size →
          (∃ j why j', allocate size c.session = .ok none ⟨c.heap, j⟩ ∧
            reallocate b.bp size c.session = .error (.refused why) ⟨c.heap, j'⟩) ∨
          ∃ moved n₁ n bs', allocate size c.session = .ok (some moved) n₁ ∧
            reallocate b.bp size c.session = .ok moved n ∧ c.heap.Moved n.heap bs bs' b moved size := by
  obtain ⟨c₀, o₀, hstart, hc₀, -, hlive₀⟩ := start_sound base hs
  refine ⟨c₀, hstart, fun acts hobeys => ?_⟩
  obtain ⟨c, o, hrun, hc, -, -⟩ := run_sound (permitted_bearable t.checked) hc₀ hlive₀ hobeys
  refine ⟨c, o.blocks, hrun, hc.heap.depicts.blocks hc.heap.valid.toLaid, ?_⟩
  intro b hb halloc size hpos
  have hinUse : b ∈ o.inUse := Outline.mem_inUse.2 ⟨hb, halloc⟩
  rcases Heap.allocate_run hc.heap size c.session.journal with
    ⟨j, hnone, ho⟩ | ⟨d, o₁, h₁, j₁, hsome, ho, hg, hs₁, hk₁⟩
  · left
    have hheld : b.bp ∈ o.held := List.mem_map_of_mem hinUse
    rcases Heap.reallocate_run hc.heap hheld size c.session.journal with
      ⟨why, j', hrefused, -⟩ | ⟨_, _, _, _, -, ho', -⟩
    · exact ⟨j, why, j', hnone, hrefused⟩
    · simp only [Outline.reallocate, if_neg (Nat.ne_of_gt hpos), ho] at ho'
      cases ho'
  · right
    obtain ⟨h', j', hmoved, hs', hk', hcopy⟩ :=
      Heap.reallocate_moves hc.heap hinUse hpos hsome hg hs₁ hk₁
    exact ⟨d.bp, ⟨h₁, j₁⟩, ⟨h', j'⟩, _, hsome, hmoved, Heap.moved hc.heap hinUse hg hs' hk' hcopy⟩

theorem written_block_moves : ∃ c₀ c bs n₁ n bs', start ⟨12, 128, true⟩ 4096 = .ok c₀ ∧
    run [.allocate 20, .allocate 5, .write 16 3 ⟨#[9, 9]⟩, .release 48] c₀ = .ok c ∧
      c.heap.blocks = .ok bs ∧ allocate 30 c.session = .ok (some 48) n₁ ∧
        reallocate 16 30 c.session = .ok 48 n ∧ c.heap.Moved n.heap bs bs' ⟨16, 32, true⟩ 48 30 := by
  -- A block with bytes written to it, which moves past its end into a free block that grows for
  -- it.
  have hvalid : Settings.validate ⟨12, 128, true⟩ = .ok ⟨16, 128, true⟩ := by decide +kernel
  have hcheck : ((start ⟨12, 128, true⟩ 4096).map fun c₀ =>
      (obeys permitted [.allocate 20, .allocate 5, .write 16 3 ⟨#[9, 9]⟩, .release 48] c₀,
        (run [.allocate 20, .allocate 5, .write 16 3 ⟨#[9, 9]⟩, .release 48] c₀).map fun c =>
          (c.heap.blocks, decide ((outcome (allocate 30 c.session)).1 = .ok (some 48))))) =
      .ok (true, .ok (.ok [⟨16, 32, true⟩, ⟨48, 16, false⟩], true)) := by
    decide +kernel
  obtain ⟨c₀, hstart, hrun⟩ := run_block_moves 4096 hvalid
  rw [hstart] at hcheck
  obtain ⟨hobeys, hfound⟩ := Prod.mk.inj (Except.ok.inj hcheck)
  obtain ⟨c, bs, hc, hblocks, hmoves⟩ := hrun _ hobeys
  rw [hc] at hfound
  obtain ⟨hshown, hfound⟩ := Prod.mk.inj (Except.ok.inj hfound)
  obtain rfl := Except.ok.inj (hblocks.symm.trans hshown)
  have hgiven := of_decide_eq_true hfound
  rcases hmoves ⟨16, 32, true⟩ (by decide) rfl 30 (by decide) with
    ⟨j, why, j', hnone, -⟩ | ⟨moved, n₁, n, bs', hsome, hmoved, hresult⟩
  · rw [hnone] at hgiven
    cases hgiven
  · rw [hsome] at hgiven
    obtain rfl := Option.some.inj (Except.ok.inj hgiven)
    exact ⟨c₀, c, _, n₁, n, bs', hstart, hc, hblocks, hsome, hmoved, hresult⟩

end Client

end BoundaryTag
