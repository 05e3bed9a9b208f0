import BoundaryTag.Proofs.Client

/-!
# Isolation of payloads

Every block a client holds keeps its room, and its payload keeps its bytes but for the writes made
through the block itself. Payloads lie apart from one another and from all tag words.
-/

set_option autoImplicit false

namespace BoundaryTag

def Heap.tagWords (h : Heap) (bs : List Block) : List Nat :=
  4 :: 8 :: (h.size - 4) :: bs.flatMap fun b => [b.bp - 4, b.stop - 8]

namespace Client

/-- The blocks held are just the allocated ones; each is as its owner left it, and its payload belongs
to nobody else. -/
structure Isolated (c : Client) (bs : List Block) : Prop where
  listed : c.heap.blocks = .ok bs
  held : ∀ bp, bp ∈ c.holdings.map Holding.bp ↔ ∃ b ∈ bs, b.allocated = true ∧ b.bp = bp
  inside : ∀ x ∈ c.holdings, 16 ≤ x.bp ∧ x.bp + x.room ≤ c.heap.size - 8
  aligned : ∀ x ∈ c.holdings, x.bp % 8 = 0
  room : ∀ x ∈ c.holdings, c.heap.payloadSize x.bp = .ok x.room
  payload : ∀ x ∈ c.holdings, c.heap.payload x.bp = .ok x.bytes
  distinct : (c.holdings.map Holding.bp).Nodup
  apart : c.holdings.Pairwise fun x y => x.bp + x.room ≤ y.bp ∨ y.bp + y.room ≤ x.bp
  tags : ∀ x ∈ c.holdings, ∀ w ∈ c.heap.tagWords bs, w + 4 ≤ x.bp ∨ x.bp + x.room ≤ w

variable {c : Client} {o : Outline}

theorem payloads_apart (hl : o.Laid) {a b : Block} (ha : a ∈ o.blocks) (hb : b ∈ o.blocks)
    (hne : a.bp ≠ b.bp) : a.bp + (a.size - 8) ≤ b.bp ∨ b.bp + (b.size - 8) ≤ a.bp := by
  rcases hl.abut.disjoint ha hb with heq | hd | hd
  · exact absurd (congrArg Block.bp heq) hne
  · simp only [Block.stop] at hd
    omega
  · simp only [Block.stop] at hd
    omega

theorem payload_off_tags {h : Heap} (hd : h.Depicts o) (hl : o.Laid) {b : Block} (hb : b ∈ o.blocks)
    {w : Nat} (hw : w ∈ h.tagWords o.blocks) : w + 4 ≤ b.bp ∨ b.bp + (b.size - 8) ≤ w := by
  have hsize : h.size = o.top := hd.size
  have hbounds := hl.bounds hb
  simp only [Heap.tagWords, List.mem_cons, List.mem_flatMap, hsize] at hw
  simp only [Block.stop] at hbounds hw
  rcases hw with rfl | rfl | rfl | ⟨d, hdmem, hw⟩
  · omega
  · omega
  · omega
  · have hdbounds := hl.bounds hdmem
    simp only [List.not_mem_nil, or_false] at hw
    rcases hl.abut.disjoint hdmem hb with rfl | hdis | hdis
    · omega
    · simp only [Block.stop] at hdis
      omega
    · simp only [Block.stop] at hdis
      omega

theorem Sound.isolated (hc : c.Sound o) : c.Isolated o.blocks := by
  have hd := hc.heap.depicts
  have hl := hc.heap.valid.toLaid
  have hsize : c.heap.size = o.top := hd.size
  have hblock : ∀ x ∈ c.holdings, ∃ b ∈ o.blocks, b.bp = x.bp ∧ x.room = b.size - 8 := by
    intro x hx
    obtain ⟨b, hb, hbx⟩ := (hc.owns x hx).block
    exact ⟨b, (Outline.mem_inUse.1 hb).1, hbx⟩
  have hapart : c.holdings.Pairwise fun x y => x.bp + x.room ≤ y.bp ∨ y.bp + y.room ≤ x.bp := by
    apply (List.pairwise_map.1 hc.distinct).imp_of_mem
    intro x y hx hy hne
    obtain ⟨a, ha, hax, haroom⟩ := hblock x hx
    obtain ⟨b, hb, hby, hbroom⟩ := hblock y hy
    rw [← hax, ← hby] at hne
    rw [← hax, ← hby, haroom, hbroom]
    exact payloads_apart hl ha hb hne
  constructor
  · exact hd.blocks hl
  · intro bp
    rw [hc.mem_positions, Outline.mem_held]
  · intro x hx
    obtain ⟨b, hb, hbp, hroom⟩ := hblock x hx
    have hbounds := hl.bounds hb
    simp only [Block.stop] at hbounds
    omega
  · intro x hx
    obtain ⟨b, hb, hbp, -⟩ := hblock x hx
    rw [← hbp]
    exact hl.aligned.1 b (List.mem_cons_of_mem _ hb)
  · intro x hx
    obtain ⟨b, hb, hbp, hroom⟩ := hblock x hx
    rw [← hbp, hroom]
    exact hd.payloadSize hl hb
  · intro x hx
    exact (hc.owns x hx).payload
  · exact hc.distinct
  · exact hapart
  · intro x hx w hw
    obtain ⟨b, hb, hbp, hroom⟩ := hblock x hx
    rw [← hbp, hroom]
    exact payload_off_tags hd hl hb hw

/-- However a client uses the blocks it holds, each stays as its owner left it. -/
theorem honest_run_isolated {s t : Settings} (base : Nat) (hs : s.validate = .ok t) :
    ∃ c₀, start s base = .ok c₀ ∧ ∀ acts, obeys honest acts c₀ = true →
      ∃ c bs, run acts c₀ = .ok c ∧ c.Isolated bs := by
  obtain ⟨c₀, o₀, hstart, hc₀, -, hlive₀⟩ := start_sound base hs
  refine ⟨c₀, hstart, fun acts hobeys => ?_⟩
  obtain ⟨c, o, hrun, hc, -, -⟩ := run_sound (honest_bearable t.checked) hc₀ hlive₀ hobeys
  exact ⟨c, o.blocks, hrun, hc.isolated⟩

theorem moved_block_run_isolated : ∃ c₀ c bs, start ⟨12, 128, false⟩ 4096 = .ok c₀ ∧
    run [.allocate 20, .allocate 5, .write 48 3 ⟨#[9, 9]⟩, .reallocate 16 30] c₀ = .ok c ∧
      c.Isolated bs := by
  have hvalid : Settings.validate ⟨12, 128, false⟩ = .ok ⟨16, 128, false⟩ := by decide +kernel
  have hobeys : ((start ⟨12, 128, false⟩ 4096).map <| obeys honest
      [.allocate 20, .allocate 5, .write 48 3 ⟨#[9, 9]⟩, .reallocate 16 30]) = .ok true := by
    decide +kernel
  obtain ⟨c₀, hstart, hrun⟩ := honest_run_isolated 4096 hvalid
  rw [hstart] at hobeys
  obtain ⟨c, bs, hc, hisolated⟩ := hrun _ (Except.ok.inj hobeys)
  exact ⟨c₀, c, bs, hstart, hc, hisolated⟩

end Client

end BoundaryTag
