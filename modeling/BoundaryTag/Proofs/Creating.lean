import BoundaryTag.Proofs.Shape
import Mathlib.Order.Bounds.Defs

/-!
# Creating a heap

Settings are accepted exactly when they can work, and what is accepted once is accepted again as it
is. A heap is created with all accepted settings, also where the limit leaves no byte to spare, and
begins with one free block of a chunk.
-/

set_option autoImplicit false

namespace BoundaryTag

namespace Settings

theorem wholeChunk_isLeast (s : Settings) :
    IsLeast {n | n % 8 = 0 ∧ s.chunk ≤ n} s.wholeChunk := by
  constructor
  · show s.wholeChunk % 8 = 0 ∧ s.chunk ≤ s.wholeChunk
    simp only [wholeChunk]
    omega
  · rintro n ⟨hmod, hle⟩
    simp only [wholeChunk]
    omega

theorem rounded_rounded (s : Settings) : s.rounded.rounded = s.rounded := by
  have hwhole : s.rounded.wholeChunk = s.wholeChunk := by
    simp only [rounded, wholeChunk]
    omega
  rw [rounded, hwhole]
  rfl

theorem Workable.rounded {s : Settings} (h : s.Workable) : s.rounded.Workable := by
  have hchunk := h.chunk
  have hwhole : s.rounded.wholeChunk = s.wholeChunk := congrArg Settings.chunk s.rounded_rounded
  refine ⟨?_, ?_, h.limit⟩
  · simp only [Settings.rounded, wholeChunk, maxBlock] at hchunk ⊢
    omega
  · rw [hwhole]
    exact h.room

theorem validate_refused {s : Settings} (h : ¬ s.Workable) :
    ∃ fault, s.validate = .error (.refused (.invalidSettings fault)) := by
  rw [validate_eq]
  split
  · exact ⟨_, rfl⟩
  · split
    · exact ⟨_, rfl⟩
    · split
      · exact ⟨_, rfl⟩
      · split
        · exact ⟨_, rfl⟩
        · exact absurd ⟨⟨by omega, by omega⟩, by omega, by omega⟩ h

end Settings

namespace Heap

/-- A heap as it is created with the settings `t`. -/
structure Fresh (h : Heap) (t : Settings) : Prop where
  settings : h.settings = t
  size : h.size = Settings.sentinelBytes + t.chunk
  cursor : h.cursor = prologue
  shaped : h.Shaped [⟨16, t.chunk, false⟩]
  live : h.live = if t.checked then some LiveBlocks.empty else none

theorem create_fresh {s t : Settings} (base : Nat) (hs : s.validate = .ok t) :
    ∃ n, Heap.create s (.ok base) = .ok n ∧ n.heap.Fresh t := by
  obtain ⟨n, hcreate, hsound, hsealed, hsettings, -⟩ := create_sound base hs
  obtain ⟨n', hcreate', -, -, -, -, -, hlive⟩ := create_run base hs
  obtain rfl := Except.ok.inj (hcreate.symm.trans hcreate')
  have hshaped := hsound.shaped hsealed
  have hcursor : (Outline.bare.extend t.chunk).cursor = 8 := by
    show home (Outline.bare.extend t.chunk).blocks 8 = 8
    rw [Outline.bare_extend_blocks]
    apply home_of_not_inside
    intro b hb
    rw [List.mem_singleton.1 hb]
    dsimp only
    omega
  rw [Outline.bare_extend_blocks] at hshaped
  exact ⟨n, hcreate, hsettings, hsound.depicts.size, hsound.depicts.cursor.trans hcursor, hshaped,
    hlive⟩

theorem create_unreserved {s t : Settings} (hs : s.validate = .ok t) (cause : SystemError) :
    Heap.create s (.error cause) = .error (.refused (.reservation cause)) := by
  rw [Heap.create, hs]
  rfl

theorem create_refused {s : Settings} {failure : Failure} (hs : s.validate = .error failure)
    (answer : Except SystemError Nat) : Heap.create s answer = .error failure := by
  rw [Heap.create, hs]
  rfl

/-- Settings that can work, and no others, are accepted, with their chunk in whole double words; on
these a heap is created wherever the system reserves its bytes, and only the system can refuse it. The
one sum that is not checked does not overflow. -/
theorem creation_succeeds_exactly (s : Settings) :
    IsLeast {n | n % 8 = 0 ∧ s.chunk ≤ n} s.wholeChunk ∧
    (s.chunk ≤ maxBlock → Settings.sentinelBytes + s.wholeChunk < addressLimit) ∧
    (s.Workable → s.validate = .ok s.rounded ∧ s.rounded.validate = .ok s.rounded ∧
      (∀ base, ∃ n, Heap.create s (.ok base) = .ok n ∧ n.heap.Fresh s.rounded) ∧
      ∀ cause, Heap.create s (.error cause) = .error (.refused (.reservation cause))) ∧
    (¬ s.Workable → ∃ fault, s.validate = .error (.refused (.invalidSettings fault)) ∧
      ∀ answer, Heap.create s answer = .error (.refused (.invalidSettings fault))) := by
  refine ⟨s.wholeChunk_isLeast, ?_, ?_, ?_⟩
  · intro hchunk
    simp only [Settings.wholeChunk, Settings.sentinelBytes, maxBlock, addressLimit] at *
    omega
  · intro hw
    have haccepted : s.validate = .ok s.rounded := Settings.validate_eq_ok_iff.2 ⟨hw, rfl⟩
    have hagain : s.rounded.validate = .ok s.rounded :=
      Settings.validate_eq_ok_iff.2 ⟨hw.rounded, s.rounded_rounded.symm⟩
    exact ⟨haccepted, hagain, fun base => create_fresh base haccepted, create_unreserved haccepted⟩
  · intro hw
    obtain ⟨fault, hrefused⟩ := Settings.validate_refused hw
    exact ⟨fault, hrefused, create_refused hrefused⟩

theorem tight_creation_succeeds_exactly :
    (Settings.Workable ⟨100, 120, true⟩ ∧
      Settings.validate ⟨100, 120, true⟩ = .ok ⟨104, 120, true⟩ ∧
      (∃ n, Heap.create ⟨100, 120, true⟩ (.ok 4096) = .ok n ∧ n.heap.Fresh ⟨104, 120, true⟩) ∧
      Heap.create ⟨100, 120, true⟩ (.error .outOfMemory) =
        .error (.refused (.reservation .outOfMemory))) ∧
    ¬ Settings.Workable ⟨100, 119, true⟩ ∧ ∃ fault,
      Heap.create ⟨100, 119, true⟩ (.ok 4096) = .error (.refused (.invalidSettings fault)) := by
  -- A limit that the rounded chunk fills to the last byte, and one that is a byte short of it.
  have hfits : Settings.Workable ⟨100, 120, true⟩ := ⟨by decide, by decide, by decide⟩
  have hshort : ¬ Settings.Workable ⟨100, 119, true⟩ := fun hw => absurd hw.room (by decide)
  obtain ⟨-, -, hcreated, -⟩ := creation_succeeds_exactly ⟨100, 120, true⟩
  obtain ⟨-, -, -, hrefused⟩ := creation_succeeds_exactly ⟨100, 119, true⟩
  obtain ⟨haccepted, -, hfresh, hunreserved⟩ := hcreated hfits
  obtain ⟨fault, -, hfault⟩ := hrefused hshort
  exact ⟨⟨hfits, haccepted, hfresh 4096, hunreserved .outOfMemory⟩, hshort, fault, hfault (.ok 4096)⟩

end Heap

end BoundaryTag
