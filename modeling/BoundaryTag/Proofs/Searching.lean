import BoundaryTag.Proofs.Depiction

/-!
# Searching a depicted outline

Both parts of the search come to an end and together look at every block once, in the order of
`Outline.find?`.
-/

set_option autoImplicit false

namespace BoundaryTag

namespace Outline

variable {o : Outline} {want : Nat} {b : Block}

theorem mem_around {p : Block → Bool} {bs : List Block} :
    b ∈ bs.dropWhile p ++ bs.takeWhile p ↔ b ∈ bs := by
  rw [List.mem_append, or_comm, ← List.mem_append, List.takeWhile_append_dropWhile]

theorem fits_iff : Block.fits want b = true ↔ b.allocated = false ∧ want ≤ b.size := by
  simp [Block.fits]

theorem find?_some (h : o.find? want = some b) :
    b ∈ o.blocks ∧ b.allocated = false ∧ want ≤ b.size := by
  obtain ⟨hfree, hle⟩ := fits_iff.1 (List.find?_some h)
  have hmem : b ∈ o.guarded := mem_around.1 (List.mem_of_find?_eq_some h)
  rcases List.mem_cons.1 hmem with rfl | hmem
  · cases hfree
  · exact ⟨hmem, hfree, hle⟩

theorem find?_eq_none : o.find? want = none ↔ ∀ b ∈ o.blocks, b.allocated = false → b.size < want := by
  constructor
  · intro h b hb hfree
    have hmem : b ∈ o.guarded := List.mem_cons_of_mem _ hb
    have hnot := List.find?_eq_none.1 h b (mem_around.2 hmem)
    rw [fits_iff] at hnot
    exact Nat.lt_of_not_le fun hle => hnot ⟨hfree, hle⟩
  · intro h
    cases hfind : o.find? want with
    | none => rfl
    | some b =>
      obtain ⟨hb, hfree, hle⟩ := find?_some hfind
      exact absurd (h b hb hfree) (Nat.not_lt.2 hle)

end Outline

namespace Heap

variable {h : Heap} {o : Outline}

theorem search_eq (hd : h.Depicts o) (hl : o.Laid) (want : Nat) :
    h.search want = .ok ((o.find? want).map Block.bp) := by
  have hfrom := hd.region.walk_boundary hl hl.cursor
  have hstart : Boundary o.guarded o.top 8 := .inl (by simp [Outline.guarded, Outline.prologue])
  have haround := hd.region.walk_boundary hl hstart
  have hnil : Sized [] := fun b hb => absurd hb List.not_mem_nil
  have hall : o.guarded.dropWhile (·.bp < 8) = o.guarded := dropWhile_abut hnil rfl hl.guarded_abut
  have htop : o.cursor ≤ o.top := (hl.cursor.bounds hl.guarded_abut).2
  rw [hall] at haround
  rw [Heap.search, hd.cursor, hfrom, haround, Outline.find?, List.find?_append, Walk.find?]
  cases hfirst : (o.guarded.dropWhile (·.bp < o.cursor)).find? (Block.fits want) with
  | some b => rfl
  | none =>
    cases hrest : (o.guarded.takeWhile (·.bp < o.cursor)).find? (Block.fits want) with
    | some b => simp [Walk.complete, hrest, Except.map, bind, Except.bind, pure, Except.pure]
    | none =>
      simp [Walk.complete, hrest, htop, Except.map, bind, Except.bind, pure, Except.pure]

end Heap

end BoundaryTag
