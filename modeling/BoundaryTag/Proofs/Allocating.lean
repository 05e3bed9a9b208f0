import BoundaryTag.Proofs.Growing
import BoundaryTag.Proofs.Searching

/-!
# Allocating on a sound heap

A heap is sound when it depicts a valid outline within its settings and tracks exactly the blocks in
use. `allocate` follows `Outline.allocate` on such a heap and leaves it sound; where it returns nothing
it has changed nothing.
-/

set_option autoImplicit false

namespace BoundaryTag

open HeapM

namespace Outline

variable {o m : Outline} {s : Settings} {b : Block} {size want bp : Nat}

theorem place_valid (h : o.Valid) (hb : b ∈ o.blocks) : ({ o with cursor := b.bp } : Outline).Valid :=
  ⟨⟨h.abut, h.sized, .inl (List.mem_map_of_mem (List.mem_cons_of_mem _ hb))⟩, h.apart⟩

theorem growth_bounds (hs : s.Accepted) (hw : 16 ≤ want ∧ want % 8 = 0 ∧ want ≤ maxBlock) :
    8 ≤ max want s.chunk ∧ max want s.chunk % 8 = 0 ∧ max want s.chunk ≤ maxBlock := by
  have := hs.chunk
  have := hs.room
  have := hs.limit
  omega

theorem supply_cases (h : o.supply s want = some (b, m)) :
    o.find? want = some b ∧ m = { o with cursor := b.bp } ∨
      o.find? want = none ∧ max want s.chunk ≤ s.limit - o.top ∧
        b = o.crown (max want s.chunk) ∧ m = o.extend (max want s.chunk) := by
  simp only [supply] at h
  split at h
  · next c hfind =>
    obtain ⟨rfl, rfl⟩ := Prod.mk.inj (Option.some.inj h)
    exact .inl ⟨hfind, rfl⟩
  · next hfind =>
    split at h
    · cases h
    · next hroom =>
      obtain ⟨rfl, rfl⟩ := Prod.mk.inj (Option.some.inj h)
      exact .inr ⟨hfind, Nat.le_of_not_lt hroom, rfl, rfl⟩

theorem supply_eq_none :
    o.supply s want = none ↔ o.find? want = none ∧ s.limit - o.top < max want s.chunk := by
  rw [supply]
  cases o.find? want with
  | some b =>
    constructor
    · intro h
      cases h
    · rintro ⟨h, -⟩
      cases h
  | none =>
    dsimp only
    split
    · next hfull => exact ⟨fun _ => ⟨rfl, hfull⟩, fun _ => rfl⟩
    · next hroom =>
      constructor
      · intro h
        cases h
      · rintro ⟨-, hfull⟩
        exact absurd hfull hroom

structure Supplied (s : Settings) (want : Nat) (o : Outline) (b : Block) (m : Outline) : Prop where
  valid : m.Valid
  mem : b ∈ m.blocks
  free : b.allocated = false
  large : want ≤ b.size
  inUse : m.inUse = o.inUse
  rises : o.top ≤ m.top
  fits : m.top ≤ s.limit
  roomy : o.Roomy → m.Roomy

theorem supplied (hs : s.Accepted) (hv : o.Valid) (htop : o.top ≤ s.limit)
    (hw : 16 ≤ want ∧ want % 8 = 0 ∧ want ≤ maxBlock) (h : o.supply s want = some (b, m)) :
    o.Supplied s want b m := by
  obtain ⟨hlow, hmod, -⟩ := growth_bounds hs hw
  rcases supply_cases h with ⟨hfind, rfl⟩ | ⟨-, hroom, rfl, rfl⟩
  · obtain ⟨hmem, hfree, hlarge⟩ := find?_some hfind
    exact ⟨place_valid hv hmem, hmem, hfree, hlarge, rfl, Nat.le_refl _, htop, id⟩
  · obtain ⟨hmem, hfree, hlarge⟩ := crown_mem (max want s.chunk) hv
    have hlarge' : want ≤ (o.crown (max want s.chunk)).size := by omega
    have htop' : o.top + max want s.chunk ≤ s.limit := by omega
    exact ⟨extend_valid hv.toLaid ⟨hlow, hmod⟩, hmem, hfree, hlarge', extend_inUse,
      Nat.le_add_right _ _, htop', fun hr => extend_roomy hr (by omega)⟩

theorem allocate_cases (s : Settings) (size : Nat) (o : Outline) :
    o.allocate s size = (none, o) ∨ ∃ want b m, 0 < size ∧ blockSizeFor size = some want ∧
      o.supply s want = some (b, m) ∧ o.allocate s size = (some b.bp, m.occupy b want) := by
  by_cases hzero : size = 0
  · exact .inl (if_pos hzero)
  · cases hwant : blockSizeFor size with
    | none => exact .inl (by simp only [allocate, if_neg hzero, hwant])
    | some want =>
      cases hsupply : o.supply s want with
      | none => exact .inl (by simp only [allocate, if_neg hzero, hwant, hsupply])
      | some found =>
        obtain ⟨b, m⟩ := found
        exact .inr ⟨want, b, m, Nat.pos_of_ne_zero hzero, rfl, hsupply,
          by simp only [allocate, if_neg hzero, hwant, hsupply]⟩

def held (o : Outline) : List Nat := o.inUse.map Block.bp

theorem mem_held : bp ∈ o.held ↔ ∃ b ∈ o.blocks, b.allocated = true ∧ b.bp = bp := by
  simp only [held, List.mem_map, mem_inUse, and_assoc]

theorem not_held (hl : o.Laid) (hb : b ∈ o.blocks) (hfree : b.allocated = false) :
    b.bp ∉ o.held := by
  intro hmem
  obtain ⟨c, hc, halloc, heq⟩ := mem_held.1 hmem
  rw [hl.abut.eq_of_bp hl.sized hc hb heq, hfree] at halloc
  cases halloc

theorem mem_release_held {x : Nat} : x ∈ (o.release bp).held ↔ x ≠ bp ∧ x ∈ o.held := by
  simp only [held, List.mem_map, mem_release_inUse]
  constructor
  · rintro ⟨c, ⟨hc, hne⟩, rfl⟩
    exact ⟨hne, c, hc, rfl⟩
  · rintro ⟨hne, c, hc, rfl⟩
    exact ⟨c, ⟨hc, hne⟩, rfl⟩

theorem bare_extend_held (chunk : Nat) : (bare.extend chunk).held = [] := by
  rw [held, extend_inUse]
  rfl

/-- What an outline is like in which `c` has been handed out for a request of `size` bytes. -/
structure Granted (s : Settings) (size : Nat) (o : Outline) (c : Block) (o' : Outline) : Prop where
  valid : o'.Valid
  rises : o.top ≤ o'.top
  fits : o'.top ≤ s.limit
  fresh : c.bp ∉ o.held
  inUse : ∀ x, x ∈ o'.inUse ↔ x = c ∨ x ∈ o.inUse
  large : size + 8 ≤ c.size
  roomy : o.Roomy → o'.Roomy

theorem granted (hs : s.Accepted) (hv : o.Valid) (htop : o.top ≤ s.limit)
    (hwant : blockSizeFor size = some want) (h : o.supply s want = some (b, m)) :
    o.Granted s size ⟨b.bp, b.share want, true⟩ (m.occupy b want) := by
  obtain ⟨hw, hw8, hwmax, hroom⟩ := bounds_of_blockSizeFor hwant
  have hm := supplied hs hv htop ⟨hw, hw8, hwmax⟩ h
  have hheld : m.held = o.held := congrArg (List.map Block.bp) hm.inUse
  have hfresh : b.bp ∉ o.held := hheld ▸ not_held hm.valid.toLaid hm.mem hm.free
  have hlarge : size + 8 ≤ b.share want := by
    have := hm.large
    simp only [Block.share]
    split <;> omega
  have hinUse : ∀ x, x ∈ (m.occupy b want).inUse ↔ x = ⟨b.bp, b.share want, true⟩ ∨ x ∈ o.inUse :=
    fun x => hm.inUse ▸ mem_occupy_inUse hm.valid.toLaid hm.mem hm.free
  exact ⟨occupy_valid hm.valid hm.mem hm.free ⟨hw, hw8⟩ hm.large, hm.rises, hm.fits, hfresh, hinUse,
    hlarge, fun hr => occupy_roomy (hm.roomy hr) hw⟩

theorem granted_of_allocate {o' : Outline} (hs : s.Accepted) (hv : o.Valid) (htop : o.top ≤ s.limit)
    (h : o.allocate s size = (some bp, o')) : ∃ c, c.bp = bp ∧ o.Granted s size c o' := by
  rcases allocate_cases s size o with hnone | ⟨want, b, m, -, hwant, hsupply, hsome⟩
  · rw [hnone] at h
    cases h
  · rw [hsome] at h
    obtain ⟨hbp, rfl⟩ := Prod.mk.inj h
    exact ⟨⟨b.bp, b.share want, true⟩, Option.some.inj hbp, granted hs hv htop hwant hsupply⟩

namespace Granted

variable {o' : Outline} {c x : Block}

theorem mem (h : o.Granted s size c o') : c ∈ o'.inUse := (h.inUse c).2 (.inl rfl)

theorem old (h : o.Granted s size c o') (hx : x ∈ o.inUse) : x ∈ o'.inUse :=
  (h.inUse x).2 (.inr hx)

theorem ne_old (h : o.Granted s size c o') (hx : x ∈ o.inUse) : x.bp ≠ c.bp := by
  intro heq
  exact h.fresh (heq ▸ List.mem_map_of_mem hx)

theorem mem_held (h : o.Granted s size c o') : bp ∈ o'.held ↔ bp = c.bp ∨ bp ∈ o.held := by
  simp only [held, List.mem_map, h.inUse]
  constructor
  · rintro ⟨x, rfl | hx, rfl⟩
    · exact .inl rfl
    · exact .inr ⟨x, hx, rfl⟩
  · rintro (rfl | ⟨x, hx, rfl⟩)
    · exact ⟨c, .inl rfl, rfl⟩
    · exact ⟨x, .inr hx, rfl⟩

theorem mem_release (h : o.Granted s size c o') (hbp : bp ∈ o.held) : c ∈ (o'.release bp).inUse :=
  mem_release_inUse.2 ⟨h.mem, fun heq => h.fresh (heq ▸ hbp)⟩

theorem old_release (h : o.Granted s size c o') (hx : x ∈ (o.release bp).inUse) :
    x ∈ (o'.release bp).inUse := by
  obtain ⟨hx, hne⟩ := mem_release_inUse.1 hx
  exact mem_release_inUse.2 ⟨h.old hx, hne⟩

end Granted

end Outline

def allot (size : Nat) : HeapM (Option (Nat × Nat)) := do
  if size = 0 then
    return none
  match blockSizeFor size with
  | none =>
    record (.tooLarge size)
    return none
  | some want =>
    match ← obtainFree size want with
    | none => return none
    | some bp =>
      occupy bp want
      return some (bp, want)

theorem allocate_eq (size : Nat) : allocate size = do
    match ← allot size with
    | none => return none
    | some (bp, want) =>
      track (·.insert bp)
      record (.allocated size bp want)
      return some bp := by
  rw [allocate, allot]
  split
  · rw [pure_bind]
  · cases blockSizeFor size with
    | none => rw [bind_assoc, pure_bind]
    | some want =>
      rw [bind_assoc]
      apply bind_congr
      intro found
      cases found with
      | none => rw [pure_bind]
      | some bp => rw [bind_assoc, pure_bind]

namespace Heap

variable {h : Heap} {o m : Outline} {b : Block} {size want bp : Nat}

/-- The heap depicts a valid outline within its settings and tracks the blocks in use, where it
tracks any. -/
structure Sound (h : Heap) (o : Outline) : Prop where
  depicts : h.Depicts o
  valid : o.Valid
  accepted : h.settings.Accepted
  capacity : h.arena.capacity = h.settings.limit
  room : o.top ≤ h.settings.limit
  tracks : ∀ live, h.live = some live → ∀ x, x ∈ live ↔ x ∈ o.held

theorem Sound.top_le (hs : h.Sound o) : o.top ≤ maxBlock := Nat.le_trans hs.room hs.accepted.limit

theorem Sound.step {h' : Heap} {o' : Outline} {ks : List Block} (hs : h.Sound o)
    (hk : h.Keeps h' ks) (hd : h'.Depicts o') (hv : o'.Valid) (htop : o'.top ≤ h.settings.limit)
    (ht : ∀ live, h'.live = some live → ∀ x, x ∈ live ↔ x ∈ o'.held) : h'.Sound o' := by
  have hsettings := hk.settings
  refine ⟨hd, hv, ?_, ?_, ?_, ht⟩
  · rw [hsettings]
    exact hs.accepted
  · rw [hsettings, hk.capacity, hs.capacity]
  · rw [hsettings]
    exact htop

theorem create_sound {s t : Settings} (base : Nat) (hs : s.validate = .ok t) :
    ∃ n, Heap.create s (.ok base) = .ok n ∧ n.heap.Sound (Outline.bare.extend t.chunk) ∧
      n.heap.region.Sealed ∧ n.heap.settings = t ∧ n.heap.arena.base = base ∧
      n.heap.live.isSome = t.checked := by
  obtain ⟨n, hcreate, hd, hsealed, hsettings, hbase, hcapacity, hlive⟩ := create_run base hs
  have haccepted := (Settings.accepted_of_validate hs).1
  have hvalid := Outline.extend_valid Outline.bare_valid.toLaid haccepted.chunk
  have htracks : ∀ live, n.heap.live = some live →
      ∀ x, x ∈ live ↔ x ∈ (Outline.bare.extend t.chunk).held := by
    intro live hl x
    rw [hlive] at hl
    split at hl
    · obtain rfl := Option.some.inj hl
      rw [Outline.bare_extend_held]
      exact Iff.rfl
    · cases hl
  have hsound : n.heap.Sound (Outline.bare.extend t.chunk) :=
    ⟨hd, hvalid, hsettings ▸ haccepted, hsettings ▸ hcapacity, hsettings ▸ haccepted.room, htracks⟩
  refine ⟨n, hcreate, hsound, hsealed, hsettings, hbase, ?_⟩
  rw [hlive]
  cases t.checked <;> rfl

theorem obtainFree_none (hs : h.Sound o) (hw : 16 ≤ want ∧ want % 8 = 0 ∧ want ≤ maxBlock)
    (hsupply : o.supply h.settings want = none) (size : Nat) (j : Array Event) :
    ∃ j', obtainFree size want ⟨h, j⟩ = .ok none ⟨h, j'⟩ := by
  obtain ⟨-, hmod, hmax⟩ := Outline.growth_bounds hs.accepted hw
  obtain ⟨hfind, hfull⟩ := Outline.supply_eq_none.1 hsupply
  have hsearch : h.search want = .ok none := by
    rw [search_eq hs.depicts hs.valid.toLaid, hfind]
    rfl
  rw [← hs.capacity, ← hs.depicts.size] at hfull
  rw [obtainFree, bind_ok (query_run hsearch j)]
  show ∃ j', (HeapM.read (·.settings.chunk) >>= _) ⟨h, j⟩ = _
  rw [bind_ok (read_run h j _), bind_ok (attempt_refused (extend_refused hmod hmax hfull j))]
  exact ⟨_, rfl⟩

theorem obtainFree_some (hs : h.Sound o) (hw : 16 ≤ want ∧ want % 8 = 0 ∧ want ≤ maxBlock)
    (hsupply : o.supply h.settings want = some (b, m)) (size : Nat) (j : Array Event) :
    ∃ h' j', obtainFree size want ⟨h, j⟩ = .ok (some b.bp) ⟨h', j'⟩ ∧ h'.Depicts m ∧
      h.Keeps h' o.inUse ∧ h'.live = h.live := by
  obtain ⟨hlow, hmod, hmax⟩ := Outline.growth_bounds hs.accepted hw
  have hsearch := search_eq hs.depicts hs.valid.toLaid want
  rcases Outline.supply_cases hsupply with ⟨hfind, rfl⟩ | ⟨hfind, hroom, rfl, rfl⟩
  · rw [hfind] at hsearch
    have hkeep := Keeps.refl h o.inUse
    have hshows := hs.depicts.region
    refine ⟨{ h with cursor := b.bp }, j, ?_,
      ⟨⟨hshows.size, hshows.tagged, hshows.epilogue⟩, rfl⟩,
      ⟨rfl, rfl, rfl, rfl, hkeep.spares, hkeep.sealed⟩, rfl⟩
    rw [obtainFree, bind_ok (query_run hsearch j)]
    rfl
  · rw [hfind] at hsearch
    rw [← hs.capacity] at hroom
    have hcap : h.arena.capacity ≤ maxBlock := hs.capacity ▸ hs.accepted.limit
    obtain ⟨h', j', hextend, hd, hk, hlive⟩ :=
      extend_run hs.depicts hs.valid ⟨hlow, hmod⟩ hroom hcap j
    refine ⟨h', j', ?_, hd, hk, hlive⟩
    rw [obtainFree, bind_ok (query_run hsearch j)]
    show (HeapM.read (·.settings.chunk) >>= _) ⟨h, j⟩ = _
    rw [bind_ok (read_run h j _), bind_ok (attempt_ok hextend)]
    rfl

theorem allot_none (hs : h.Sound o) (ho : (o.allocate h.settings size).1 = none)
    (j : Array Event) : ∃ j', allot size ⟨h, j⟩ = .ok none ⟨h, j'⟩ := by
  rw [allot]
  by_cases hzero : size = 0
  · exact ⟨j, by rw [if_pos hzero]; rfl⟩
  · rw [if_neg hzero]
    cases hwant : blockSizeFor size with
    | none => exact ⟨j.push (.tooLarge size), rfl⟩
    | some want =>
      obtain ⟨hw, hw8, hwmax, -⟩ := bounds_of_blockSizeFor hwant
      cases hsupply : o.supply h.settings want with
      | some found => simp [Outline.allocate, hzero, hwant, hsupply] at ho
      | none =>
        obtain ⟨j', hrun⟩ := obtainFree_none hs ⟨hw, hw8, hwmax⟩ hsupply size j
        refine ⟨j', ?_⟩
        show (obtainFree size want >>= _) ⟨h, j⟩ = _
        rw [bind_ok hrun]
        rfl

theorem allot_some (hs : h.Sound o) (hsize : 0 < size) (hwant : blockSizeFor size = some want)
    (hsupply : o.supply h.settings want = some (b, m)) (j : Array Event) :
    ∃ h' j', allot size ⟨h, j⟩ = .ok (some (b.bp, want)) ⟨h', j'⟩ ∧
      h'.Depicts (m.occupy b want) ∧ h.Keeps h' o.inUse ∧ h'.live = h.live := by
  obtain ⟨hw, hw8, hwmax, -⟩ := bounds_of_blockSizeFor hwant
  have hm := Outline.supplied hs.accepted hs.valid hs.room ⟨hw, hw8, hwmax⟩ hsupply
  obtain ⟨h₁, j₁, hfree, hd₁, hk₁, hlive₁⟩ := obtainFree_some hs ⟨hw, hw8, hwmax⟩ hsupply size j
  obtain ⟨h₂, hoccupy, hd₂, hk₂, hlive₂⟩ := occupy_run hd₁ hm.valid hm.mem hm.free ⟨hw, hw8⟩
    hm.large (Nat.le_trans hm.fits hs.accepted.limit) j₁
  rw [hm.inUse] at hk₂
  refine ⟨h₂, j₁, ?_, hd₂, hk₁.trans hk₂, hlive₂.trans hlive₁⟩
  rw [allot, if_neg (Nat.ne_of_gt hsize), hwant]
  show (obtainFree size want >>= _) ⟨h, j⟩ = _
  rw [bind_ok hfree]
  show (BoundaryTag.occupy b.bp want >>= _) ⟨h₁, j₁⟩ = _
  rw [bind_ok hoccupy]
  rfl

theorem allocate_none (hs : h.Sound o) (ho : (o.allocate h.settings size).1 = none)
    (j : Array Event) : ∃ j', BoundaryTag.allocate size ⟨h, j⟩ = .ok none ⟨h, j'⟩ := by
  obtain ⟨j', hrun⟩ := allot_none hs ho j
  refine ⟨j', ?_⟩
  rw [allocate_eq, bind_ok hrun]
  rfl

theorem allocate_some (hs : h.Sound o) (hsize : 0 < size) (hwant : blockSizeFor size = some want)
    (hsupply : o.supply h.settings want = some (b, m)) (j : Array Event) :
    ∃ h' j', BoundaryTag.allocate size ⟨h, j⟩ = .ok (some b.bp) ⟨h', j'⟩ ∧
      h'.Sound (m.occupy b want) ∧ h.Keeps h' o.inUse := by
  have hg := Outline.granted hs.accepted hs.valid hs.room hwant hsupply
  obtain ⟨h₁, j₁, hallot, hd, hk, hlive⟩ := allot_some hs hsize hwant hsupply j
  have hinsert : ∀ live, h₁.live = some live → ∃ live', live.insert b.bp = .ok live' := by
    intro live hl
    apply LiveBlocks.insert_of_not_mem
    rw [hs.tracks live (hlive ▸ hl)]
    exact hg.fresh
  obtain ⟨tracked, htrack, htracked, hmem⟩ := track_run hinsert j₁
  have hkeep : h.Keeps { h₁ with live := tracked } o.inUse :=
    ⟨hk.settings, hk.base, hk.capacity, htracked.trans hk.tracked, hk.spares, hk.sealed⟩
  have hsound : ({ h₁ with live := tracked } : Heap).Sound (m.occupy b want) := by
    apply hs.step hkeep ⟨hd.region, hd.cursor⟩ hg.valid hg.fits
    intro live hl x
    obtain ⟨old, hold, hnew⟩ := hmem live hl
    rw [LiveBlocks.mem_of_insert hnew, hs.tracks old (hlive ▸ hold), hg.mem_held]
  refine ⟨{ h₁ with live := tracked }, j₁.push (.allocated size b.bp want), ?_, hsound, hkeep⟩
  rw [allocate_eq, bind_ok hallot]
  show (track (·.insert b.bp) >>= _) ⟨h₁, j₁⟩ = _
  rw [bind_ok htrack]
  rfl

/-- On a sound heap `allocate` never traps: it hands out a fresh block or leaves the heap as it was. -/
theorem allocate_run (hs : h.Sound o) (size : Nat) (j : Array Event) :
    (∃ j', BoundaryTag.allocate size ⟨h, j⟩ = .ok none ⟨h, j'⟩ ∧
      o.allocate h.settings size = (none, o)) ∨
    ∃ c o' h' j', BoundaryTag.allocate size ⟨h, j⟩ = .ok (some c.bp) ⟨h', j'⟩ ∧
      o.allocate h.settings size = (some c.bp, o') ∧ o.Granted h.settings size c o' ∧
      h'.Sound o' ∧ h.Keeps h' o.inUse := by
  rcases Outline.allocate_cases h.settings size o with
    hnone | ⟨want, b, m, hsize, hwant, hsupply, hsome⟩
  · obtain ⟨j', hrun⟩ := allocate_none hs (by rw [hnone]) j
    exact .inl ⟨j', hrun, hnone⟩
  · obtain ⟨h', j', hrun, hs', hk⟩ := allocate_some hs hsize hwant hsupply j
    have hg := Outline.granted hs.accepted hs.valid hs.room hwant hsupply
    exact .inr ⟨⟨b.bp, b.share want, true⟩, _, h', j', hrun, hsome, hg, hs', hk⟩

end Heap

end BoundaryTag
