import BoundaryTag.Proofs.Client
import BoundaryTag.Proofs.Safety

/-!
# Finding blocks by address

Of all addresses just the payload starts of the blocks in use lead to a block: not the tags, not the
insides of payloads, not the sentinels, not what is free, and nothing outside the heap.
-/

set_option autoImplicit false

namespace BoundaryTag

namespace Outline

variable {o : Outline} {pos : Nat}

theorem held_bounds (hl : o.Laid) (hpos : pos ∈ o.held) : 16 ≤ pos ∧ pos < o.top ∧ pos % 8 = 0 := by
  obtain ⟨b, hb, -, rfl⟩ := mem_held.1 hpos
  obtain ⟨hlow, hstop, hsize, -⟩ := hl.bounds hb
  have haligned := hl.aligned.1 b (List.mem_cons_of_mem _ hb)
  simp only [Block.stop] at hstop
  exact ⟨hlow, by omega, haligned⟩

theorem mem_upTo (hl : o.Laid) {b : Block} (hb : b ∈ o.blocks) :
    b ∈ o.blocks.takeWhile (·.bp ≤ b.bp) := by
  obtain ⟨xs, ys, hsplit⟩ := List.append_of_mem hb
  have habut := hl.abut
  rw [hsplit] at habut
  obtain ⟨hxs, -⟩ := abut_middle.1 habut
  have hpassed : ∀ c ∈ xs, decide (c.bp ≤ b.bp) = true := by
    intro c hc
    have hstop := (hxs.bounds hc).2
    simp only [Block.stop] at hstop
    rw [decide_eq_true_eq]
    omega
  rw [hsplit, List.takeWhile_append_of_pos hpassed, List.takeWhile_cons_of_pos (by simp)]
  exact List.mem_append_right _ List.mem_cons_self

end Outline

namespace Heap

variable {h : Heap} {o : Outline}

theorem Depicts.walk_finds (hd : h.Depicts o) (hl : o.Laid) (pos : Nat) :
    ((h.walk.upTo pos).find? fun b => b.bp = pos && b.allocated).map (Option.map Block.bp) =
      .ok (if pos ∈ o.held then some pos else none) := by
  rw [hd.walk hl]
  simp only [Walk.upTo, Walk.find?, ite_self, Walk.complete]
  cases hfind : (o.blocks.takeWhile (·.bp ≤ pos)).find? fun b => b.bp = pos && b.allocated with
  | some b =>
    have hmem := (List.takeWhile_sublist _).mem (List.mem_of_find?_eq_some hfind)
    have hb := List.find?_some hfind
    simp only [Bool.and_eq_true, decide_eq_true_eq] at hb
    obtain ⟨rfl, halloc⟩ := hb
    rw [if_pos (Outline.mem_held.2 ⟨b, hmem, halloc, rfl⟩)]
    rfl
  | none =>
    have hout : pos ∉ o.held := by
      intro hpos
      obtain ⟨b, hb, halloc, rfl⟩ := Outline.mem_held.1 hpos
      exact List.find?_eq_none.1 hfind b (Outline.mem_upTo hl hb) (by simp [halloc])
    rw [if_neg hout]
    rfl

theorem Depicts.allocatedAt (hd : h.Depicts o) (hl : o.Laid) (address : Nat) :
    h.allocatedAt address =
      .ok (if h.arena.base ≤ address ∧ address - h.arena.base ∈ o.held then
        some (address - h.arena.base) else none) := by
  rw [Heap.allocatedAt]
  dsimp only
  split
  · next hout =>
    rw [if_neg]
    rintro ⟨hbase, hheld⟩
    obtain ⟨-, htop, haligned⟩ := Outline.held_bounds hl hheld
    rw [hd.size] at hout
    simp only [unitBytes] at hout
    omega
  · next hin =>
    rw [hd.walk_finds hl]
    have hbase : h.arena.base ≤ address := by omega
    simp only [hbase, true_and]

theorem Depicts.allocatedAt_distance (hd : h.Depicts o) (hl : o.Laid) (distance : Int) :
    h.allocatedAt (h.arena.base + distance).toNat =
      .ok (if distance.toNat ∈ o.held then some distance.toNat else none) := by
  rw [hd.allocatedAt hl]
  by_cases hbelow : distance < 0
  · have hbase : ¬ h.arena.base ≤ (h.arena.base + distance).toNat ∨
        (h.arena.base + distance).toNat - h.arena.base = 0 := by omega
    have hzero : distance.toNat = 0 := by omega
    have hnone : 0 ∉ o.held := fun hheld => by
      have := (Outline.held_bounds hl hheld).1
      omega
    rw [hzero, if_neg hnone, if_neg]
    rintro ⟨hle, hheld⟩
    rcases hbase with hlt | heq
    · exact hlt hle
    · exact hnone (heq ▸ hheld)
  · have hbase : h.arena.base ≤ (h.arena.base + distance).toNat := by omega
    have hdistance : (h.arena.base + distance).toNat - h.arena.base = distance.toNat := by omega
    simp only [hbase, hdistance, true_and]

theorem addressOf_eq {pos : Nat} (hfit : h.arena.base + pos < addressLimit) :
    h.addressOf pos = h.arena.base + pos := Nat.mod_eq_of_lt hfit

theorem Sound.finds_iff (hs : h.Sound o) (hfit : h.arena.base + h.settings.limit ≤ addressLimit)
    (address : Nat) : ∃ found, h.allocatedAt address = .ok found ∧
      ∀ bp, found = some bp ↔ bp ∈ o.held ∧ address = h.addressOf bp := by
  have hl := hs.valid.toLaid
  have haddress : ∀ bp, bp ∈ o.held → h.addressOf bp = h.arena.base + bp := by
    intro bp hbp
    have htop := (Outline.held_bounds hl hbp).2.1
    have hroom := hs.room
    exact addressOf_eq (by omega)
  refine ⟨_, hs.depicts.allocatedAt hl address, fun bp => ?_⟩
  split
  · next hin =>
    obtain ⟨hbase, hheld⟩ := hin
    constructor
    · intro hfound
      obtain rfl := Option.some.inj hfound
      refine ⟨hheld, ?_⟩
      rw [haddress _ hheld]
      omega
    · rintro ⟨hbp, rfl⟩
      rw [haddress bp hbp, Nat.add_sub_cancel_left]
  · next hout =>
    constructor
    · intro hfound
      cases hfound
    · rintro ⟨hbp, rfl⟩
      rw [haddress bp hbp] at hout
      exact absurd ⟨Nat.le_add_right _ _, by rwa [Nat.add_sub_cancel_left]⟩ hout

end Heap

namespace Client

/-- On whatever heap a client has come to, an address leads to a block exactly where the client holds
the block and the address is that of its payload; all other addresses lead nowhere, and looking one up
never traps. The system has placed the whole heap below the end of the address range. -/
theorem run_addresses_lead_back {s t : Settings} {base : Nat} (hs : s.validate = .ok t)
    (hbase : base + s.limit ≤ addressLimit) :
    ∃ c₀, start s base = .ok c₀ ∧ ∀ acts, obeys permitted acts c₀ = true →
      ∃ c, run acts c₀ = .ok c ∧
        (∀ pos tag, c.heap.region.tagAt pos = .ok tag → pos + tag.size < addressLimit) ∧
        ∀ address, ∃ found, c.heap.allocatedAt address = .ok found ∧
          ∀ bp, found = some bp ↔ c.holds bp = true ∧ address = c.heap.addressOf bp := by
  obtain ⟨c₀, hstart, hc₀, hsettings₀, hbase₀, hlive₀⟩ := start_follows base hs
  refine ⟨c₀, hstart, fun acts hobeys => ?_⟩
  obtain ⟨c, hrun, hc, hk⟩ := run_follows (permitted_bearable t.checked) hc₀ hlive₀ hobeys
  have hfit : c.heap.arena.base + c.heap.settings.limit ≤ addressLimit := by
    rw [hk.base, hk.settings, hbase₀, hsettings₀, (Settings.accepted_of_validate hs).2.1]
    exact hbase
  have hsize : c.heap.region.size ≤ maxBlock := by
    rw [hc.heap.depicts.region.size]
    exact hc.heap.top_le
  refine ⟨c, hrun, fun _ _ => Heap.reach_lt_addressLimit hsize, fun address => ?_⟩
  obtain ⟨found, hfound, hiff⟩ := hc.heap.finds_iff hfit address
  refine ⟨found, hfound, fun bp => ?_⟩
  rw [hiff bp, hc.holds_iff]

theorem deceptive_payload_addresses_lead_back : ∃ c₀ c, start ⟨12, 128, false⟩ 4096 = .ok c₀ ∧
    run [.allocate 20, .allocate 5, .write 16 4 ⟨#[17, 0, 0, 0]⟩, .release 48] c₀ = .ok c ∧
      c.heap.allocatedAt 4112 = .ok (some 16) ∧ c.heap.allocatedAt 4120 = .ok none ∧
        c.heap.allocatedAt 4144 = .ok none := by
  -- A block in use whose payload holds the bytes of a tag, and behind it a block that has been
  -- released and joined with what is free: only the start of the first payload leads to a block.
  have hvalid : Settings.validate ⟨12, 128, false⟩ = .ok ⟨16, 128, false⟩ := by decide +kernel
  have hcheck : ((start ⟨12, 128, false⟩ 4096).map fun c₀ =>
      (obeys permitted [.allocate 20, .allocate 5, .write 16 4 ⟨#[17, 0, 0, 0]⟩, .release 48] c₀,
        (run [.allocate 20, .allocate 5, .write 16 4 ⟨#[17, 0, 0, 0]⟩, .release 48] c₀).map fun c =>
          (c.holdings.map Holding.bp, c.heap.addressOf 16))) = .ok (true, .ok ([16], 4112)) := by
    decide +kernel
  obtain ⟨c₀, hstart, hrun⟩ := run_addresses_lead_back hvalid
    (show 4096 + 128 ≤ addressLimit by decide)
  rw [hstart] at hcheck
  obtain ⟨hobeys, hshown⟩ := Prod.mk.inj (Except.ok.inj hcheck)
  obtain ⟨c, hc, -, hleads⟩ := hrun _ hobeys
  rw [hc] at hshown
  obtain ⟨hheld, haddress⟩ := Prod.mk.inj (Except.ok.inj hshown)
  have hholds : ∀ bp, c.holds bp = true ↔ bp = 16 := by
    intro bp
    have hpositions : c.holds bp = (c.holdings.map Holding.bp).any (· == bp) := by
      rw [List.any_map]
      rfl
    rw [hpositions, hheld, List.any_cons, List.any_nil, Bool.or_false, beq_iff_eq]
    exact eq_comm
  have hnowhere : ∀ address, address ≠ 4112 → c.heap.allocatedAt address = .ok none := by
    intro address hother
    obtain ⟨found, hfound, hiff⟩ := hleads address
    cases found with
    | none => exact hfound
    | some bp =>
      obtain ⟨hbp, rfl⟩ := (hiff bp).1 rfl
      obtain rfl := (hholds bp).1 hbp
      exact absurd haddress hother
  obtain ⟨found, hfound, hiff⟩ := hleads 4112
  rw [(hiff 16).2 ⟨(hholds 16).2 rfl, haddress.symm⟩] at hfound
  exact ⟨c₀, c, hstart, hc, hfound, hnowhere _ (by decide), hnowhere _ (by decide)⟩

end Client

end BoundaryTag
