import BoundaryTag.Proofs.Checking

/-!
# Well-formed regions

A region is well formed when it reads as a list of blocks between a prologue and an epilogue. That is
said with the words at the blocks' positions, without a pass over them. The checker accepts a heap
just when its region is well formed and its base aligned.
-/

set_option autoImplicit false

namespace BoundaryTag

namespace Region

/-- The blocks `bs` follow one another from the prologue up to the epilogue at the end of the region.
Header and footer of each hold one word, no two neighbours are free, and the cursor is at a block or at
the end. -/
structure WellFormed (r : Region) (cursor : Nat) (bs : List Block) : Prop where
  prologue : bs.head? = some ⟨8, 8, true⟩
  sizes : ∀ b ∈ bs.tail, 16 ≤ b.size
  tiles : Abut 8 bs r.size
  tags : ∀ b ∈ bs, ∃ w, r.header b.bp = .ok w ∧ r.footer b.bp = .ok w ∧
    Tag.ofWord w = ⟨b.size, b.allocated⟩
  apart : Apart bs
  epilogue : r.tagAt r.size = .ok ⟨0, true⟩
  cursor : cursor = r.size ∨ ∃ b ∈ bs, b.bp = cursor

variable {r : Region} {o : Outline} {cursor : Nat} {bs : List Block}

theorem Shows.wellFormed (h : r.Shows o) (hv : o.Valid) (hr : o.Roomy) :
    r.WellFormed o.cursor o.guarded := by
  have hl := hv.toLaid
  have hsize := h.size
  have htop := hl.top_ge
  constructor
  case prologue => rfl
  case sizes => exact hr
  case tiles => exact hsize ▸ hl.guarded_abut
  case tags =>
    intro b hb
    have hbounds := hl.guarded_abut.bounds hb
    exact (h.tagged b hb).words (by omega) (hl.guarded_sized b hb).1 (hsize ▸ hbounds.2)
  case apart => exact hv.guarded_apart
  case epilogue => rw [tagAt_eq (by omega) (Nat.le_refl _), hsize, h.epilogue]
  case cursor =>
    rw [hsize]
    exact hl.cursor.symm.imp_right List.mem_map.1

theorem WellFormed.shows (h : r.WellFormed cursor bs) :
    ∃ o : Outline, r.Shows o ∧ o.Valid ∧ o.Roomy ∧ o.cursor = cursor := by
  obtain ⟨rest, rfl⟩ : ∃ rest, bs = Outline.prologue :: rest := by
    obtain ⟨rest, hrest⟩ := List.head?_eq_some_iff.1 h.prologue
    exact ⟨rest, hrest⟩
  have hlarge : ∀ b ∈ Outline.prologue :: rest, 8 ≤ b.size := by
    intro b hb
    rcases List.mem_cons.1 hb with rfl | hb
    · decide
    · exact Nat.le_trans (by decide) (h.sizes b hb)
  have htagged : ∀ b ∈ Outline.prologue :: rest, r.Tagged b := by
    intro b hb
    obtain ⟨w, hheader, hfooter, hw⟩ := h.tags b hb
    exact tagged_of_words (hlarge b hb) (h.tiles.bounds hb).2 hheader hfooter hw
  have hsized : Sized rest := by
    intro b hb
    obtain ⟨w, -, -, hw⟩ := h.tags b (List.mem_cons_of_mem _ hb)
    have hmod := Tag.size_ofWord_mod w
    rw [hw] at hmod
    exact ⟨hlarge b (List.mem_cons_of_mem _ hb), hmod⟩
  have hepilogue : Tag.ofWord (r.word (r.size - 4)) = ⟨0, true⟩ := by
    have hend := h.epilogue
    rw [tagAt_eq (bounds_of_tagAt hend).1 (Nat.le_refl _)] at hend
    exact Except.ok.inj hend
  have hcursor : Boundary (Outline.prologue :: rest) r.size cursor :=
    (h.cursor.imp_right List.mem_map.2).symm
  refine ⟨⟨rest, r.size, cursor⟩, ⟨rfl, htagged, hepilogue⟩, ⟨⟨h.tiles.2, hsized, hcursor⟩, ?_⟩,
    h.sizes, rfl⟩
  exact (apart_cons.1 h.apart).2

end Region

namespace Heap

/-- The checker reports nothing exactly on the heaps whose bytes are those of a list of blocks, in
whatever way they came to be there. -/
theorem faultless_iff_wellFormed {h : Heap} : h.faults = .ok [] ↔
    h.arena.base % 8 = 0 ∧ ∃ bs, h.region.WellFormed h.cursor bs := by
  constructor
  · intro hf
    obtain ⟨o, hd, hv, hr, hbase⟩ := depicts_of_faultless hf
    refine ⟨hbase, o.guarded, ?_⟩
    rw [hd.cursor]
    exact hd.region.wellFormed hv hr
  · rintro ⟨hbase, bs, hformed⟩
    obtain ⟨o, hshows, hv, hr, hcursor⟩ := hformed.shows
    exact faultless_of_depicts ⟨hshows, hcursor.symm⟩ hv hr hbase

end Heap

end BoundaryTag
