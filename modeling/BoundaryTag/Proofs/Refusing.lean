import BoundaryTag.Proofs.Client

/-!
# Refused reallocations

A reallocation is refused for two reasons only: it asks for nothing, or an allocation of as many bytes
would get nothing. Either refusal leaves the heap as it was, the old block with it.
-/

set_option autoImplicit false

namespace BoundaryTag

/-- How a reallocation of the block at `bp` to `size` bytes ends, on a heap that may have `limit`
bytes. -/
structure Session.Settles (n : Session) (limit bp size : Nat) : Prop where
  empty : (∃ m, reallocate bp size n = .error (.refused .zeroSize) m) ↔ size = 0
  full : (∃ m, reallocate bp size n =
      .error (.refused (.outOfMemory size (limit - n.heap.size))) m) ↔
    0 < size ∧ ∃ m, allocate size n = .ok none m
  moved : (∃ place m, reallocate bp size n = .ok place m) ↔
    0 < size ∧ ¬ ∃ m, allocate size n = .ok none m
  unchanged : ∀ failure m, reallocate bp size n = .error failure m → m.heap = n.heap

namespace Heap

variable {h : Heap} {o : Outline} {bp : Nat}

theorem Sound.settles (hs : h.Sound o) (hbp : bp ∈ o.held) (size : Nat) (j : Array Event) :
    Session.Settles ⟨h, j⟩ h.settings.limit bp size := by
  -- In each case the one answer is known, and every field is read off it.
  by_cases hzero : size = 0
  · subst hzero
    have hrun := reallocate_empty hs hbp j
    constructor <;> simp [hrun]
  · have hpos := Nat.pos_of_ne_zero hzero
    rcases allocate_run hs size j with ⟨j', hnone, -⟩ | ⟨c, o₁, h₁, j₁, hsome, -, hg, hs₁, hk₁⟩
    · have hrun := reallocate_full hs hbp hpos hnone
      constructor <;> simp [hrun, hnone, hpos, hzero]
    · obtain ⟨a, ha, rfl⟩ := List.mem_map.1 hbp
      obtain ⟨h', j', hrun, -⟩ := reallocate_moves hs ha hpos hsome hg hs₁ hk₁
      constructor <;> simp [hrun, hsome, hpos, hzero]

end Heap

namespace Client

/-- On whatever heap a client has come to, a reallocation of a block that it holds, to any size, ends
with just one of three answers, and a refusal changes nothing. What is left below the limit is a
difference that never passes below zero. -/
theorem run_reallocation_settles {s t : Settings} (base : Nat) (hs : s.validate = .ok t) :
    ∃ c₀, start s base = .ok c₀ ∧ ∀ acts, obeys permitted acts c₀ = true →
      ∃ c, run acts c₀ = .ok c ∧ c.heap.arena.capacity = s.limit ∧ c.heap.size ≤ s.limit ∧
        ∀ bp, c.holds bp = true → ∀ size, c.session.Settles s.limit bp size := by
  obtain ⟨c₀, o₀, hstart, hc₀, hsettings₀, hlive₀⟩ := start_sound base hs
  refine ⟨c₀, hstart, fun acts hobeys => ?_⟩
  obtain ⟨c, o, hrun, hc, hsettings, -⟩ :=
    run_sound (permitted_bearable t.checked) hc₀ hlive₀ hobeys
  have hlimit : c.heap.settings.limit = s.limit := by
    rw [hsettings, hsettings₀, (Settings.accepted_of_validate hs).2.1]
  have hsize : c.heap.size ≤ s.limit := by
    rw [hc.heap.depicts.size, ← hlimit]
    exact hc.heap.room
  refine ⟨c, hrun, hc.heap.capacity.trans hlimit, hsize, fun bp hbp size => ?_⟩
  rw [← hlimit]
  exact hc.heap.settles (hc.holds_iff.1 hbp) size c.session.journal

theorem written_block_reallocation_settles : ∃ c₀ c, start ⟨12, 128, true⟩ 4096 = .ok c₀ ∧
    run [.allocate 20, .allocate 5, .write 16 3 ⟨#[9, 9]⟩, .release 48] c₀ = .ok c ∧
      (∃ m, reallocate 16 0 c.session = .error (.refused .zeroSize) m ∧ m.heap = c.heap) ∧
      (∃ m, reallocate 16 57 c.session = .error (.refused (.outOfMemory 57 64)) m ∧
        m.heap = c.heap) ∧
      (∃ m, reallocate 16 18446744073709551615 c.session =
        .error (.refused (.outOfMemory 18446744073709551615 64)) m ∧ m.heap = c.heap) ∧
      ∃ place m, reallocate 16 56 c.session = .ok place m := by
  -- With 64 bytes left to grow by: nothing asked for, a byte more than can be had, more than
  -- there are addresses, and all that can be had.
  have hvalid : Settings.validate ⟨12, 128, true⟩ = .ok ⟨16, 128, true⟩ := by decide +kernel
  have hcheck : ((start ⟨12, 128, true⟩ 4096).map fun c₀ =>
      (obeys permitted [.allocate 20, .allocate 5, .write 16 3 ⟨#[9, 9]⟩, .release 48] c₀,
        (run [.allocate 20, .allocate 5, .write 16 3 ⟨#[9, 9]⟩, .release 48] c₀).map fun c =>
          (c.heap.size, c.holds 16, [57, 18446744073709551615, 56].map fun size =>
            decide ((outcome (allocate size c.session)).1 = .ok none)))) =
      .ok (true, .ok (64, true, [true, true, false])) := by
    decide +kernel
  obtain ⟨c₀, hstart, hrun⟩ := run_reallocation_settles 4096 hvalid
  rw [hstart] at hcheck
  obtain ⟨hobeys, hshown⟩ := Prod.mk.inj (Except.ok.inj hcheck)
  obtain ⟨c, hc, -, -, hsettles⟩ := hrun _ hobeys
  rw [hc] at hshown
  obtain ⟨hsize, hrest⟩ := Prod.mk.inj (Except.ok.inj hshown)
  obtain ⟨hholds, hfound⟩ := Prod.mk.inj hrest
  simp only [List.map_cons, List.map_nil, List.cons.injEq, decide_eq_true_eq, decide_eq_false_iff_not]
    at hfound
  obtain ⟨hshort, hover, hfits, -⟩ := hfound
  have hrefused : ∀ size, 0 < size → (outcome (allocate size c.session)).1 = .ok none →
      ∃ m, reallocate 16 size c.session = .error (.refused (.outOfMemory size 64)) m ∧
        m.heap = c.heap := by
    intro size hpos hfound
    have hnone : ∃ m, allocate size c.session = .ok none m := ok_of_outcome hfound
    have hleft : 128 - c.session.heap.size = 64 := by rw [show c.session.heap.size = 64 from hsize]
    obtain ⟨m, hm⟩ := (hsettles 16 hholds size).full.2 ⟨hpos, hnone⟩
    have hsame := (hsettles 16 hholds size).unchanged _ m hm
    rw [hleft] at hm
    exact ⟨m, hm, hsame⟩
  have hserved : ¬ ∃ m, allocate 56 c.session = .ok none m := by
    rintro ⟨m, hm⟩
    rw [hm] at hfits
    exact hfits rfl
  obtain ⟨m, hm⟩ := (hsettles 16 hholds 0).empty.2 rfl
  exact ⟨c₀, c, hstart, hc, ⟨m, hm, (hsettles 16 hholds 0).unchanged _ m hm⟩,
    hrefused 57 (by decide) hshort, hrefused _ (by decide) hover,
    (hsettles 16 hholds 56).moved.2 ⟨by decide, hserved⟩⟩

end Client

end BoundaryTag
