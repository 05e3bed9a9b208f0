import BoundaryTag.Proofs.Floor
import BoundaryTag.Proofs.Isolation
import BoundaryTag.Proofs.Tracking

/-!
# What checking guards

A checked heap refuses to release or reallocate a position that is not live, and as long as writes go
through live blocks nothing a client names can harm the heap or the payload of another block. Reading
a payload and writing into one are not guarded: they go by whatever word stands where the header of the
position would be, so that a write through a stale position can destroy tags and other payloads.
-/

set_option autoImplicit false

namespace BoundaryTag

namespace Heap

variable {h : Heap} {bp : Nat}

theorem payloadSize_ok_iff {n : Nat} : h.payloadSize bp = .ok n ↔ 4 ≤ bp ∧ bp ≤ h.size ∧
    (Tag.ofWord (h.region.word (bp - 4))).size = n + 8 := by
  constructor
  · intro hn
    cases htag : h.region.tagAt bp with
    | error t => simp [payloadSize, htag, bind, Except.bind] at hn
    | ok tag =>
      obtain ⟨hlow, hhigh⟩ := Region.bounds_of_tagAt htag
      rw [Region.tagAt_eq hlow hhigh] at htag
      obtain rfl := Except.ok.inj htag
      rw [payloadSize, Region.tagAt_eq hlow hhigh] at hn
      refine ⟨hlow, hhigh, ?_⟩
      have hminus : minus (Tag.ofWord (h.region.word (bp - 4))).size 8 = .ok n := hn
      rw [minus] at hminus
      split at hminus
      · have := Except.ok.inj hminus
        omega
      · cases hminus
  · rintro ⟨hlow, hhigh, hsize⟩
    rw [payloadSize, Region.tagAt_eq (r := h.region) hlow hhigh]
    show minus (Tag.ofWord (h.region.word (bp - 4))).size 8 = .ok n
    rw [hsize, minus_of_le (Nat.le_add_left 8 n), Nat.add_sub_cancel]

theorem payload_ok_iff : (∃ bytes, h.payload bp = .ok bytes) ↔
    ∃ n, h.payloadSize bp = .ok n ∧ bp + n ≤ h.size := by
  cases hn : h.payloadSize bp with
  | error t => simp [payload, hn, bind, Except.bind]
  | ok n =>
    have hread : h.payload bp = h.region.readBytes bp n := by
      rw [payload, hn]
      rfl
    rw [hread, Region.readBytes]
    by_cases hfit : bp + n ≤ h.region.size
    · rw [if_pos hfit]
      exact ⟨fun _ => ⟨n, rfl, hfit⟩, fun _ => ⟨_, rfl⟩⟩
    · rw [if_neg hfit]
      constructor
      · rintro ⟨bytes, hbytes⟩
        cases hbytes
      · rintro ⟨m, hm, hfit'⟩
        obtain rfl := Except.ok.inj hm
        exact absurd hfit' hfit

end Heap

namespace Client

/-- What checking guards: a release or a reallocation of a position that is not live is refused, and
nothing that was done has harmed the heap or the payload of a block held. -/
structure Guarded (c : Client) (live : LiveBlocks) (bs : List Block) : Prop where
  faultless : c.heap.faults = .ok []
  isolated : c.Isolated bs
  exact : c.session.Exact live bs

/-- Whatever positions a client releases or reallocates on a checked heap, and whatever it reads, a heap
whose first block is full-sized stays whole while the writes go through live blocks. -/
theorem careless_run_guarded {s t : Settings} {base : Nat} (hs : s.validate = .ok t)
    (hbase : base % 8 = 0) (hchecked : s.checked = true) (hchunk : 9 ≤ s.chunk) :
    ∃ c₀, start s base = .ok c₀ ∧ ∀ acts, obeys careless acts c₀ = true →
      ∃ c live bs, run acts c₀ = .ok c ∧ c.Guarded live bs := by
  have hfull := Settings.chunk_of_validate hs
  have htracked : t.checked = true := (Settings.accepted_of_validate hs).2.2.trans hchecked
  obtain ⟨c₀, hstart, -, hruns⟩ := run_floored base hs (htracked ▸ careless_bearable)
  refine ⟨c₀, hstart, fun acts hobeys => ?_⟩
  obtain ⟨c, o, hrun, hc, hfloor, hplace, hlive⟩ := hruns acts hobeys
  obtain ⟨live, hlive⟩ := Option.isSome_iff_exists.1 (hlive.trans htracked)
  have hroomy : o.Roomy := hfloor.resolve_right fun hsmall => by omega
  have hfaults := Heap.faultless_of_depicts hc.heap.depicts hc.heap.valid hroomy
    (by rw [hplace, hbase])
  exact ⟨c, live, _, hrun, hfaults, hc.isolated, hc.exact hlive⟩

/-- Two neighbouring blocks are released, and their space becomes one block with the stale position 32
inside its payload. -/
def carvedAnew : List Act := [.allocate 8, .allocate 8, .release 32, .release 16, .allocate 40]

theorem stale_release_run_guarded : ∃ c₀ c live bs, start ⟨64, 256, true⟩ 4096 = .ok c₀ ∧
    run (carvedAnew ++ [.release 32, .reallocate 32 8, .write 16 16 ⟨#[1, 2, 3]⟩]) c₀ = .ok c ∧
      c.Guarded live bs := by
  have hvalid : Settings.validate ⟨64, 256, true⟩ = .ok ⟨64, 256, true⟩ := by decide +kernel
  have hobeys : ((start ⟨64, 256, true⟩ 4096).map <| obeys careless
      (carvedAnew ++ [.release 32, .reallocate 32 8, .write 16 16 ⟨#[1, 2, 3]⟩])) = .ok true := by
    decide +kernel
  obtain ⟨c₀, hstart, hrun⟩ :=
    careless_run_guarded hvalid (show 4096 % 8 = 0 by decide) rfl (show 9 ≤ 64 by decide)
  rw [hstart] at hobeys
  obtain ⟨c, live, bs, hc, hguarded⟩ := hrun _ (Except.ok.inj hobeys)
  exact ⟨c₀, c, live, bs, hstart, hc, hguarded⟩

/-- A write through a released block on a checked heap is not refused: where its space has been carved
anew it changes the payload of the live block there and destroys tags. -/
theorem stale_write_destroys :
    (heapAfter ⟨64, 256, true⟩ 4096 carvedAnew).map
      (fun h => (h.live.map LiveBlocks.positions, h.faults)) = .ok (some [16], .ok []) ∧
    (heapAfter ⟨64, 256, true⟩ 4096 carvedAnew).map
      (fun h => (h.payloadSize 16, h.payloadSize 32, h.region.byte 32)) = .ok (.ok 40, .ok 40, 0) ∧
    (heapAfter ⟨64, 256, true⟩ 4096
        (carvedAnew ++ [.write 32 0 ⟨Array.replicate 40 255⟩])).map
      (fun h => (h.faults, h.payloadSize 16, h.region.byte 32)) =
        .ok (.ok [.tagMismatch 16 49 4294967295, .outOfBounds 64], .ok 40, 255) := by
  decide +kernel

end Client

end BoundaryTag
