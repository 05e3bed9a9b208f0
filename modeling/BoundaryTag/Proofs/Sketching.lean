import BoundaryTag.Proofs.Blindness
import BoundaryTag.Proofs.Releasing

/-!
# Sketches

A sketch of a heap is what its operations go by: the settings, the outline and the live set, without a
byte of the region. The operations run on sketches too, and a heap follows its sketch: they give the
same answers, refusals and traps included, whatever else the bytes hold. Nothing is asked of the live
set, so it need not name the blocks in use.
-/

set_option autoImplicit false

namespace BoundaryTag

open HeapM

structure Sketch where
  settings : Settings
  outline : Outline
  live : Option LiveBlocks

abbrev SketchM := EStateM Failure Sketch

namespace Sketch

def track (f : LiveBlocks → Except Trap LiveBlocks) : SketchM Unit := fun k =>
  match k.live with
  | none => .ok () k
  | some live =>
    match f live with
    | .ok changed => .ok () { k with live := some changed }
    | .error t => .error (.trapped t) k

def requireLive (bp : Nat) (action : String) : SketchM Unit :=
  track fun live => (live.require bp action).map fun _ => live

def allot (size : Nat) : SketchM (Option Nat) := fun k =>
  let (found, o) := k.outline.allocate k.settings size
  .ok found { k with outline := o }

def giveBack (bp : Nat) : SketchM Unit := fun k =>
  .ok () { k with outline := k.outline.release bp }

def outOfMemory {α : Type} (size : Nat) : SketchM α := fun k =>
  .error (.refused (.outOfMemory size (k.settings.limit - k.outline.top))) k

def allocate (size : Nat) : SketchM (Option Nat) := do
  match ← allot size with
  | none => return none
  | some bp =>
    track (·.insert bp)
    return some bp

def release (bp : Nat) : SketchM Unit := do
  track (·.erase bp "free")
  giveBack bp

def reallocate (bp size : Nat) : SketchM Nat := do
  requireLive bp "realloc"
  if size = 0 then
    throw (.refused .zeroSize)
  match ← allocate size with
  | none => outOfMemory size
  | some moved =>
    release bp
    return moved

variable {k k' : Sketch}

theorem track_outline {f : LiveBlocks → Except Trap LiveBlocks} (h : track f k = .ok () k') :
    k'.outline = k.outline := by
  simp only [track] at h
  split at h
  · exact (EStateM.Result.ok.inj h).2 ▸ rfl
  · split at h
    · exact (EStateM.Result.ok.inj h).2 ▸ rfl
    · cases h

theorem allot_outline {size : Nat} {found : Option Nat} (h : allot size k = .ok found k') :
    k.outline.allocate k.settings size = (found, k'.outline) := by
  simp only [allot] at h
  obtain ⟨rfl, rfl⟩ := EStateM.Result.ok.inj h
  rfl

theorem allocate_outline {size : Nat} {found : Option Nat} (h : allocate size k = .ok found k') :
    k.outline.allocate k.settings size = (found, k'.outline) := by
  rw [allocate] at h
  obtain ⟨found', k₁, hallot, h⟩ := exists_of_bind_ok h
  rw [allot_outline hallot]
  cases found' with
  | none =>
    obtain ⟨rfl, rfl⟩ := EStateM.Result.ok.inj h
    rfl
  | some bp =>
    obtain ⟨_, k₂, htrack, h⟩ := exists_of_bind_ok h
    obtain ⟨rfl, rfl⟩ := EStateM.Result.ok.inj h
    rw [track_outline htrack]

end Sketch

/-- The heap is as the sketch tells. -/
structure Heap.Follows (h : Heap) (k : Sketch) : Prop where
  settings : h.settings = k.settings
  live : h.live = k.live
  sound : (h.tracking none).Sound k.outline

def Agrees {α : Type} : EStateM.Result Failure Session α → EStateM.Result Failure Sketch α → Prop :=
  Matches fun n k => n.heap.Follows k

namespace Heap

variable {h : Heap} {k : Sketch} {b : Block} {bp size : Nat}

theorem Follows.depicts (hk : h.Follows k) : h.Depicts k.outline :=
  ⟨hk.sound.depicts.region, hk.sound.depicts.cursor⟩

theorem Follows.accepted (hk : h.Follows k) : k.settings.Accepted := hk.settings ▸ hk.sound.accepted

theorem Follows.room (hk : h.Follows k) : k.outline.top ≤ k.settings.limit :=
  hk.settings ▸ hk.sound.room

theorem Follows.available (hk : h.Follows k) :
    h.arena.available = k.settings.limit - k.outline.top := by
  have hsize : h.arena.size = k.outline.top := hk.depicts.size
  have hcapacity : h.arena.capacity = h.settings.limit := hk.sound.capacity
  rw [Arena.available, hsize, hcapacity, hk.settings]

theorem Follows.redrawn {h' : Heap} {o' : Outline} {ks : List Block} (hk : h.Follows k)
    (hs : h'.Sound o') (hkeeps : (h.tracking none).Keeps h' ks) :
    (h'.tracking h.live).Follows { k with outline := o' } := by
  have hnone : h'.live = none := Option.not_isSome_iff_eq_none.1 (by simp [hkeeps.tracked, tracking])
  have hself : h'.tracking none = h' := by rw [← hnone, tracking_live]
  refine ⟨hkeeps.settings.trans hk.settings, hk.live, ?_⟩
  rw [tracking_tracking, hself]
  exact hs

theorem track_agrees (hk : h.Follows k) (f : LiveBlocks → Except Trap LiveBlocks)
    (j : Array Event) : Agrees (track f ⟨h, j⟩) (Sketch.track f k) := by
  obtain ⟨arena, settings, cursor, live⟩ := h
  obtain ⟨settings', o, live'⟩ := k
  obtain rfl : live = live' := hk.live
  simp only [track, Sketch.track]
  cases live with
  | none => exact ⟨rfl, hk⟩
  | some live =>
    dsimp only
    cases f live with
    | ok changed => exact ⟨rfl, hk.settings, rfl, hk.sound⟩
    | error t => exact ⟨rfl, hk⟩

theorem requireLive_agrees (hk : h.Follows k) (bp : Nat) (action : String) (j : Array Event) :
    Agrees (requireLive bp action ⟨h, j⟩) (Sketch.requireLive bp action k) := by
  simp only [requireLive, query, Sketch.requireLive, Sketch.track, hk.live]
  cases hlive : k.live with
  | none => exact ⟨rfl, hk⟩
  | some live =>
    dsimp only
    cases live.require bp action with
    | ok u => exact ⟨rfl, hk.settings, hk.live.trans hlive, hk.sound⟩
    | error t => exact ⟨rfl, hk⟩

theorem allot_follows (hk : h.Follows k) (size : Nat) (j : Array Event) :
    (∃ j', allot size ⟨h, j⟩ = .ok none ⟨h, j'⟩ ∧ Sketch.allot size k = .ok none k) ∨
    ∃ bp want k' h' j', allot size ⟨h, j⟩ = .ok (some (bp, want)) ⟨h', j'⟩ ∧
      Sketch.allot size k = .ok (some bp) k' ∧ h'.Follows k' := by
  have hs := hk.sound
  have hblind := (allot_oblivious size).blind
  rcases Outline.allocate_cases k.settings size k.outline with
    hnone | ⟨want, b, m, hsize, hwant, hsupply, hsome⟩
  · left
    have hidle : (k.outline.allocate h.settings size).1 = none := by rw [hk.settings, hnone]
    obtain ⟨j', hrun⟩ := allot_none hs hidle j
    have hrun' := hblind.restore hrun
    exact ⟨j', hrun', by simp only [Sketch.allot, hnone]⟩
  · right
    have hg := Outline.granted hk.accepted hs.valid hk.room hwant hsupply
    rw [← hk.settings] at hsupply hg
    obtain ⟨h', j', hrun, hd, hkeeps, hlive⟩ := allot_some hs hsize hwant hsupply j
    have hs' : h'.Sound (m.occupy b want) := by
      apply hs.step hkeeps hd hg.valid hg.fits
      intro live hl
      rw [hlive] at hl
      cases hl
    exact ⟨b.bp, want, _, _, j', hblind.restore hrun, by simp only [Sketch.allot, hsome],
      hk.redrawn hs' hkeeps⟩

theorem giveBack_agrees (hk : h.Follows k) (hbp : bp ∈ k.outline.held) (j : Array Event) :
    Agrees (giveBack bp ⟨h, j⟩) (Sketch.giveBack bp k) := by
  obtain ⟨h', j', hrun, hs', hkeeps⟩ := release_run hk.sound hbp j
  have hback : giveBack bp ⟨h.tracking none, j⟩ = .ok () ⟨h', j'⟩ := hrun
  rw [(giveBack_oblivious bp).blind.restore hback]
  exact ⟨rfl, hk.redrawn hs' hkeeps⟩

theorem Follows.inside {r : Region} {low high : Nat} (hk : h.Follows k) (hb : b ∈ k.outline.blocks)
    (hw : h.region.Within r low high) (hlow : b.bp ≤ low) (hhigh : high ≤ b.stop - 8) :
    (h.withRegion r).Follows k := by
  have hothers : ∀ c ∈ ([] : List Block), c ∈ k.outline.blocks ∧ c ≠ b := by simp
  obtain ⟨hs, -⟩ := hk.sound.inside hb hw hlow hhigh hothers
  exact ⟨hk.settings, hk.live, hs⟩

theorem writePayload_follows (hk : h.Follows k) (hbp : bp ∈ k.outline.held) (start : Nat)
    (data : ByteArray) (j : Array Event) :
    ∃ h', (writePayload bp start data ⟨h, j⟩ = .ok () ⟨h', j⟩ ∨
      writePayload bp start data ⟨h, j⟩ = .error (.trapped .outOfBounds) ⟨h', j⟩) ∧
        h'.Follows k := by
  obtain ⟨b, hb, -, rfl⟩ := Outline.mem_held.1 hbp
  have hl := hk.sound.valid.toLaid
  by_cases hfit : start + data.size ≤ b.size - 8
  · have hothers : ∀ c ∈ ([] : List Block), c ∈ k.outline.blocks ∧ c ≠ b := by simp
    obtain ⟨h', hrun, hs', hkeeps, -⟩ := writePayload_run hk.sound hb hfit hothers j
    exact ⟨_, .inl ((writePayload_oblivious _ _ _).blind.restore hrun), hk.redrawn hs' hkeeps⟩
  · refine ⟨h, .inr ?_, hk⟩
    rw [writePayload, bind_ok (query_run (hk.depicts.payload hl hb) j), hk.depicts.size_payload hl hb,
      if_neg hfit]
    rfl

theorem copy_follows {a c : Block} (hk : h.Follows k) (ha : a ∈ k.outline.blocks)
    (hc : c ∈ k.outline.blocks) (hlarge : size + 8 ≤ c.size) (j : Array Event) :
    ∃ h', query (·.payloadSize a.bp) ⟨h, j⟩ = .ok (a.size - 8) ⟨h, j⟩ ∧
      edit (Region.move a.bp (min size (a.size - 8)) c.bp) ⟨h, j⟩ = .ok () ⟨h', j⟩ ∧
        h'.Follows k := by
  have hl := hk.sound.valid.toLaid
  have habounds := hl.bounds ha
  have hcbounds := hl.bounds hc
  have hrsize := hk.depicts.region.size
  simp only [Block.stop] at habounds hcbounds
  have hsource : a.bp + min size (a.size - 8) ≤ h.region.size := by omega
  have htarget : c.bp + min size (a.size - 8) ≤ h.region.size := by omega
  obtain ⟨r, hmove, hwithin, -⟩ := move_run hsource htarget
  refine ⟨h.withRegion r, query_run (hk.depicts.payloadSize hl ha) j, edit_run hmove j, ?_⟩
  exact hk.inside hc hwithin (Nat.le_refl _) (by simp only [Block.stop]; omega)

theorem allocate_agrees (hk : h.Follows k) (size : Nat) (j : Array Event) :
    Agrees (allocate size ⟨h, j⟩) (Sketch.allocate size k) := by
  rw [allocate_eq, Sketch.allocate]
  rcases allot_follows hk size j with ⟨j', hrun, hsketch⟩ | ⟨bp, want, k', h', j', hrun, hsketch, hk'⟩
  · rw [bind_ok hrun, bind_ok hsketch]
    exact ⟨rfl, hk⟩
  · rw [bind_ok hrun, bind_ok hsketch]
    apply Matches.bind (track_agrees hk' (·.insert bp) j')
    intro _ n₁ k₁ _ _ hk₁
    exact ⟨rfl, hk₁⟩

theorem release_agrees (hk : h.Follows k) (hbp : bp ∈ k.outline.held) (j : Array Event) :
    Agrees (release bp ⟨h, j⟩) (Sketch.release bp k) := by
  rw [release_eq, Sketch.release]
  apply Matches.bind (track_agrees hk (·.erase bp "free") j)
  intro _ n₁ k₁ _ htrack hk₁
  have hbp₁ : bp ∈ k₁.outline.held := Sketch.track_outline htrack ▸ hbp
  exact giveBack_agrees hk₁ hbp₁ n₁.journal

theorem reallocate_agrees (hk : h.Follows k) (hbp : bp ∈ k.outline.held) (size : Nat)
    (j : Array Event) : Agrees (reallocate bp size ⟨h, j⟩) (Sketch.reallocate bp size k) := by
  rw [BoundaryTag.reallocate, Sketch.reallocate]
  apply Matches.bind (requireLive_agrees hk bp "realloc" j)
  intro _ n₁ k₁ _ hrequire hk₁
  have hbp₁ : bp ∈ k₁.outline.held := Sketch.track_outline hrequire ▸ hbp
  by_cases hzero : size = 0
  · rw [if_pos hzero, if_pos hzero]
    exact ⟨rfl, hk₁⟩
  · rw [if_neg hzero, if_neg hzero]
    apply Matches.bind (allocate_agrees hk₁ size n₁.journal)
    intro found n₂ k₂ _ hallocate hk₂
    have ho := Sketch.allocate_outline hallocate
    cases found with
    | none =>
      have hleft := congrArg (fun left => Failure.refused (.outOfMemory size left)) hk₂.available
      exact ⟨hleft, hk₂⟩
    | some moved =>
      obtain ⟨c, rfl, hg⟩ := Outline.granted_of_allocate hk₁.accepted hk₁.sound.valid hk₁.room ho
      obtain ⟨a, ha, rfl⟩ := List.mem_map.1 hbp₁
      obtain ⟨h₃, hquery, hedit, hk₃⟩ := copy_follows hk₂ (Outline.mem_inUse.1 (hg.old ha)).1
        (Outline.mem_inUse.1 hg.mem).1 hg.large n₂.journal
      have hbp₃ : a.bp ∈ k₂.outline.held := List.mem_map_of_mem (hg.old ha)
      show Agrees ((query (·.payloadSize a.bp) >>= _) ⟨n₂.heap, n₂.journal⟩) _
      rw [bind_ok hquery, bind_ok hedit]
      apply Matches.bind (release_agrees hk₃ hbp₃ n₂.journal)
      intro _ n₄ k₄ _ _ hk₄
      exact ⟨rfl, hk₄⟩

end Heap

end BoundaryTag
