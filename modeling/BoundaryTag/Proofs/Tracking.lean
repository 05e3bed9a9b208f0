import BoundaryTag.Proofs.Client

/-!
# The live set of a checked heap

On a checked heap the live set and the allocated bits in the bytes name the same blocks, whatever
positions a client releases or reallocates. Nothing leaks: with no live block the heap is one free
block again.
-/

set_option autoImplicit false

namespace BoundaryTag

namespace Outline

variable {o : Outline} {s : Settings} {bp size : Nat}

theorem held_ascending (hl : o.Laid) : o.held.Pairwise (· < ·) :=
  (hl.abut.ascending hl.sized).sublist (List.filter_sublist.map _)

theorem blocks_of_idle (hv : o.Valid) (htop : 16 < o.top) (hidle : o.held = []) :
    o.blocks = [⟨16, o.top - 16, false⟩] := by
  have hfree : ∀ b ∈ o.blocks, b.allocated = false := by
    intro b hb
    rw [Bool.eq_false_iff]
    intro halloc
    have hmem : b.bp ∈ o.held := mem_held.2 ⟨b, hb, halloc, rfl⟩
    rw [hidle] at hmem
    cases hmem
  have habut := hv.abut
  have hap := hv.apart
  cases hblocks : o.blocks with
  | nil =>
    rw [hblocks] at habut
    have hnil : 16 = o.top := habut
    omega
  | cons b bs =>
    rw [hblocks] at habut hap hfree
    cases bs with
    | nil =>
      have hstop : b.stop = o.top := habut.2
      have hbp := habut.1
      have hb := hfree b (by simp)
      obtain ⟨bp, size, allocated⟩ := b
      simp only [Block.stop] at hstop hbp hb
      subst hbp hb
      have hsize : size = o.top - 16 := by omega
      rw [hsize]
    | cons c bs =>
      -- Two blocks would be free neighbours.
      have hseam := (apart_cons.1 hap).1 c (by simp)
      simp [hfree b (by simp), hfree c (by simp)] at hseam

theorem allocate_of_idle {b : Block} {o' : Outline} (hblocks : o.blocks = [b])
    (hfree : b.allocated = false) (h : o.allocate s size = (some bp, o')) : bp = b.bp := by
  rcases allocate_cases s size o with hnone | ⟨want, c, m, -, -, hsupply, hsome⟩
  · rw [hnone] at h
    cases h
  · rw [hsome] at h
    obtain rfl := Option.some.inj (Prod.mk.inj h).1
    simp only [supply] at hsupply
    split at hsupply
    · next d hfind =>
      obtain ⟨rfl, -⟩ := Prod.mk.inj (Option.some.inj hsupply)
      have hmem := (find?_some hfind).1
      rw [hblocks] at hmem
      rw [List.mem_singleton.1 hmem]
    · split at hsupply
      · cases hsupply
      · obtain ⟨rfl, -⟩ := Prod.mk.inj (Option.some.inj hsupply)
        simp [crown, hblocks, hfree]

end Outline

namespace Heap

variable {h : Heap} {o : Outline} {live : LiveBlocks} {bp : Nat}

def LiveAre (h : Heap) (p : Nat → Prop) : Prop :=
  ∃ live, h.live = some live ∧ ∀ x, x ∈ live ↔ p x

theorem Keeps.liveAre {h' : Heap} {o' : Outline} {ks : List Block} {p : Nat → Prop}
    (hk : h.Keeps h' ks) (hlive : h.live = some live) (hs' : h'.Sound o')
    (hp : ∀ x, x ∈ o'.held ↔ p x) : h'.LiveAre p := by
  have htracked : h'.live.isSome = true := by rw [hk.tracked, hlive, Option.isSome_some]
  obtain ⟨live', hlive'⟩ := Option.isSome_iff_exists.1 htracked
  exact ⟨live', hlive', fun x => (hs'.tracks live' hlive' x).trans (hp x)⟩

theorem allocate_live (hs : h.Sound o) (hlive : h.live = some live) (size : Nat) (j : Array Event) :
    (∃ n, BoundaryTag.allocate size ⟨h, j⟩ = .ok none n ∧ n.heap = h) ∨
    ∃ bp n, BoundaryTag.allocate size ⟨h, j⟩ = .ok (some bp) n ∧ bp ∉ live ∧
      n.heap.LiveAre fun x => x = bp ∨ x ∈ live := by
  have hmem := hs.tracks live hlive
  rcases allocate_run hs size j with ⟨j', hrun, -⟩ | ⟨c, o', h', j', hrun, -, hg, hs', hk⟩
  · exact .inl ⟨_, hrun, rfl⟩
  · refine .inr ⟨c.bp, _, hrun, fun hin => hg.fresh ((hmem c.bp).1 hin), ?_⟩
    apply hk.liveAre hlive hs'
    intro x
    rw [hg.mem_held, hmem x]

theorem release_live (hs : h.Sound o) (hlive : h.live = some live) (hbp : bp ∈ live)
    (j : Array Event) : ∃ n, BoundaryTag.release bp ⟨h, j⟩ = .ok () n ∧
      n.heap.LiveAre fun x => x ≠ bp ∧ x ∈ live := by
  have hmem := hs.tracks live hlive
  obtain ⟨h', j', hrun, hs', hk⟩ := release_run hs ((hmem bp).1 hbp) j
  refine ⟨_, hrun, ?_⟩
  apply hk.liveAre hlive hs'
  intro x
  rw [Outline.mem_release_held, hmem x]

theorem reallocate_live (hs : h.Sound o) (hlive : h.live = some live) (hbp : bp ∈ live) (size : Nat)
    (j : Array Event) :
    (∃ moved n, BoundaryTag.reallocate bp size ⟨h, j⟩ = .ok moved n ∧ moved ∉ live ∧
      n.heap.LiveAre fun x => x = moved ∨ x ≠ bp ∧ x ∈ live) ∨
    ∃ why n, BoundaryTag.reallocate bp size ⟨h, j⟩ = .error (.refused why) n ∧ n.heap = h := by
  have hmem := hs.tracks live hlive
  rcases reallocate_run hs ((hmem bp).1 hbp) size j with
    ⟨why, j', hrun, -⟩ | ⟨c, o₁, h', j', hrun, -, hg, hs', hk, -⟩
  · exact .inr ⟨why, _, hrun, rfl⟩
  · have hfresh : c.bp ∉ live := fun hin => hg.fresh ((hmem c.bp).1 hin)
    have hother : c.bp ≠ bp := fun heq => hfresh (heq ▸ hbp)
    refine .inl ⟨c.bp, _, hrun, hfresh, ?_⟩
    apply hk.liveAre hlive hs'
    intro x
    rw [Outline.mem_release_held, hg.mem_held, ← hmem x]
    constructor
    · rintro ⟨hne, rfl | hx⟩
      · exact .inl rfl
      · exact .inr ⟨hne, hx⟩
    · rintro (rfl | ⟨hne, hx⟩)
      · exact ⟨hother, .inl rfl⟩
      · exact ⟨hne, .inr hx⟩

end Heap

/-- The live set names just the allocated blocks, and the operations go by it: a block handed out is new
to it, and a release takes out the block released and no other. -/
structure Session.Exact (n : Session) (live : LiveBlocks) (bs : List Block) : Prop where
  tracked : n.heap.live = some live
  listed : n.heap.blocks = .ok bs
  members : ∀ bp, bp ∈ live ↔ ∃ b ∈ bs, b.allocated = true ∧ b.bp = bp
  count : n.heap.liveCount? = some (bs.filter (·.allocated)).length
  allocates : ∀ size, (∃ n', allocate size n = .ok none n' ∧ n'.heap = n.heap) ∨
    ∃ bp n', allocate size n = .ok (some bp) n' ∧ bp ∉ live ∧
      n'.heap.LiveAre fun x => x = bp ∨ x ∈ live
  releases : ∀ bp, bp ∈ live → ∃ n', release bp n = .ok () n' ∧
    n'.heap.LiveAre fun x => x ≠ bp ∧ x ∈ live
  reallocates : ∀ bp size, bp ∈ live →
    (∃ moved n', reallocate bp size n = .ok moved n' ∧ moved ∉ live ∧
      n'.heap.LiveAre fun x => x = moved ∨ x ≠ bp ∧ x ∈ live) ∨
    ∃ why n', reallocate bp size n = .error (.refused why) n' ∧ n'.heap = n.heap
  releaseGuard : ∀ bp, bp ∉ live → release bp n = .error (.trapped (.notLive "free" bp)) n
  reallocateGuard : ∀ bp size, bp ∉ live →
    reallocate bp size n = .error (.trapped (.notLive "realloc" bp)) n
  idle : n.heap.liveCount? = some 0 → bs = [⟨16, n.heap.size - 16, false⟩] ∧
    ∀ size bp n', allocate size n = .ok (some bp) n' → bp = 16

namespace Client

variable {c : Client} {o : Outline} {live : LiveBlocks}

theorem Sound.positions (hc : c.Sound o) (hlive : c.heap.live = some live) :
    live.positions = o.held := by
  have hsame : live = ⟨o.held, Outline.held_ascending hc.heap.valid.toLaid⟩ :=
    LiveBlocks.ext_mem (hc.heap.tracks live hlive)
  rw [hsame]

theorem Sound.liveCount (hc : c.Sound o) (hlive : c.heap.live = some live) :
    c.heap.liveCount? = some o.held.length := by
  rw [Heap.liveCount?, hlive, ← hc.positions hlive]
  rfl

theorem Sound.idle (hc : c.Sound o) (hlive : c.heap.live = some live)
    (hzero : c.heap.liveCount? = some 0) : o.blocks = [⟨16, c.heap.size - 16, false⟩] := by
  rw [hc.liveCount hlive] at hzero
  have hnil : o.held = [] := List.length_eq_zero_iff.1 (Option.some.inj hzero)
  rw [Outline.blocks_of_idle hc.heap.valid hc.stocked hnil, hc.heap.depicts.size]

theorem Sound.exact (hc : c.Sound o) (hlive : c.heap.live = some live) :
    c.session.Exact live o.blocks := by
  have hcount := hc.liveCount hlive
  have hidle := hc.idle hlive
  obtain ⟨⟨h, j⟩, holdings⟩ := c
  have hs : h.Sound o := hc.heap
  have hmem : ∀ bp, bp ∈ live ↔ bp ∈ o.held := hs.tracks live hlive
  constructor
  · exact hlive
  · exact hs.depicts.blocks hs.valid.toLaid
  · intro bp
    rw [hmem bp, Outline.mem_held]
  · rw [Outline.held, List.length_map] at hcount
    exact hcount
  · exact fun size => Heap.allocate_live hs hlive size j
  · exact fun bp hbp => Heap.release_live hs hlive hbp j
  · exact fun bp size hbp => Heap.reallocate_live hs hlive hbp size j
  · intro bp hbp
    exact Heap.release_foreign hs hlive (fun hin => hbp ((hmem bp).2 hin)) j
  · intro bp size hbp
    exact Heap.reallocate_foreign hs hlive (fun hin => hbp ((hmem bp).2 hin)) size j
  · intro hzero
    have hblocks := hidle hzero
    refine ⟨hblocks, fun size bp n' hrun => ?_⟩
    rcases Heap.allocate_run hs size j with ⟨j', hnone, -⟩ | ⟨b, o', h', j', hsome, ho, -⟩
    · have hboth := hrun.symm.trans hnone
      cases hboth
    · obtain ⟨hfound, -⟩ := EStateM.Result.ok.inj (hrun.symm.trans hsome)
      rw [Option.some.inj hfound]
      exact Outline.allocate_of_idle hblocks rfl ho

/-- On a checked heap the live set stays exact, whatever positions a client names: a position outside
the set is refused with nothing changed, and no block is handed out twice. -/
theorem careless_run_exact {s t : Settings} (base : Nat) (hs : s.validate = .ok t)
    (hchecked : s.checked = true) :
    ∃ c₀, start s base = .ok c₀ ∧ ∀ acts, obeys careless acts c₀ = true →
      ∃ c live bs, run acts c₀ = .ok c ∧ c.session.Exact live bs := by
  obtain ⟨c₀, o₀, hstart, hc₀, -, hlive₀⟩ := start_sound base hs
  rw [(Settings.accepted_of_validate hs).2.2, hchecked] at hlive₀
  refine ⟨c₀, hstart, fun acts hobeys => ?_⟩
  obtain ⟨c, o, hrun, hc, -, htracked⟩ := run_sound careless_bearable hc₀ hlive₀ hobeys
  obtain ⟨live, hlive⟩ := Option.isSome_iff_exists.1 htracked
  exact ⟨c, live, o.blocks, hrun, hc.exact hlive⟩

theorem doubly_freed_run_exact : ∃ c₀ c live bs, start ⟨12, 128, true⟩ 4096 = .ok c₀ ∧
    run [.allocate 20, .release 24, .reallocate 16 30, .release 16, .release 16] c₀ = .ok c ∧
      c.session.Exact live bs := by
  have hvalid : Settings.validate ⟨12, 128, true⟩ = .ok ⟨16, 128, true⟩ := by decide +kernel
  have hobeys : ((start ⟨12, 128, true⟩ 4096).map <| obeys careless
      [.allocate 20, .release 24, .reallocate 16 30, .release 16, .release 16]) = .ok true := by
    decide +kernel
  obtain ⟨c₀, hstart, hrun⟩ := careless_run_exact 4096 hvalid rfl
  rw [hstart] at hobeys
  obtain ⟨c, live, bs, hc, hexact⟩ := hrun _ (Except.ok.inj hobeys)
  exact ⟨c₀, c, live, bs, hstart, hc, hexact⟩

end Client

end BoundaryTag
