import BoundaryTag.Proofs.Client

/-!
# Releasing many blocks

Blocks released one after the other leave the heap that marking them all free and joining the free
neighbours once would leave. So the order of the releases does not matter.
-/

set_option autoImplicit false

namespace BoundaryTag

def Block.marked (bps : List Nat) (b : Block) : Block := if b.bp ∈ bps then b.freed else b

@[simp] theorem Block.bp_marked (bps : List Nat) (b : Block) : (b.marked bps).bp = b.bp := by
  rw [Block.marked]
  split <;> rfl

@[simp] theorem Block.size_marked (bps : List Nat) (b : Block) : (b.marked bps).size = b.size := by
  rw [Block.marked]
  split <;> rfl

@[simp] theorem Block.stop_marked (bps : List Nat) (b : Block) : (b.marked bps).stop = b.stop := by
  rw [Block.stop, bp_marked, size_marked, Block.stop]

theorem Block.marked_of_free {b : Block} (hfree : b.allocated = false) (bps : List Nat) :
    b.marked bps = b := by
  rw [Block.marked, Block.freed, ← hfree, ite_self]

theorem Block.marked_append (xs ys : List Nat) (b : Block) :
    (b.marked xs).marked ys = b.marked (xs ++ ys) := by
  by_cases hx : b.bp ∈ xs <;> by_cases hy : b.bp ∈ ys <;>
    simp [Block.marked, Block.freed, hx, hy]

theorem abut_marked {bs : List Block} {start stop : Nat} (h : Abut start bs stop) (bps : List Nat) :
    Abut start (bs.map (Block.marked bps)) stop := by
  induction bs generalizing start with
  | nil => exact h
  | cons b bs ih => exact ⟨b.bp_marked bps ▸ h.1, b.stop_marked bps ▸ ih h.2⟩

theorem Block.attach_attach {b c : Block} (hb : b.allocated = false) (hc : c.allocated = false)
    (cs : List Block) :
    b.attach (c.attach cs) = Block.attach ⟨b.bp, b.size + c.size, false⟩ cs := by
  cases cs with
  | nil => simp [Block.attach, hb, hc]
  | cons d ds => cases hd : d.allocated <;> simp [Block.attach, hb, hc, hd, Nat.add_assoc]

theorem joinFree_map {f : Block → Block} (hf : ∀ b, b.allocated = false → f b = b)
    (bs : List Block) : joinFree ((joinFree bs).map f) = joinFree (bs.map f) := by
  induction bs with
  | nil => rfl
  | cons b bs ih =>
    show joinFree ((b.attach (joinFree bs)).map f) = (f b).attach (joinFree (bs.map f))
    rw [← ih]
    cases joinFree bs with
    | nil => rfl
    | cons c cs =>
      rw [Block.attach]
      split
      · rfl
      · next hfree =>
        simp only [Bool.or_eq_true, not_or, Bool.not_eq_true] at hfree
        obtain ⟨hb, hc⟩ := hfree
        rw [List.map_cons, List.map_cons, hf _ rfl, hf b hb, hf c hc]
        exact (Block.attach_attach hb hc _).symm

theorem cover_attach {b x : Block} {cs : List Block} {stop : Nat} (h : Abut b.stop cs stop)
    (hx : x ∈ b :: cs) : ∃ c ∈ b.attach cs, c.bp ≤ x.bp ∧ x.stop ≤ c.stop := by
  cases cs with
  | nil => exact ⟨x, hx, Nat.le_refl _, Nat.le_refl _⟩
  | cons c cs =>
    rw [Block.attach]
    split
    · exact ⟨x, hx, Nat.le_refl _, Nat.le_refl _⟩
    · have hc : c.bp = b.stop := h.1
      simp only [Block.stop] at hc
      rcases List.mem_cons.1 hx with rfl | hx
      · exact ⟨_, List.mem_cons_self, Nat.le_refl _, by simp only [Block.stop]; omega⟩
      · rcases List.mem_cons.1 hx with rfl | hx
        · exact ⟨_, List.mem_cons_self, by dsimp only; omega, by simp only [Block.stop]; omega⟩
        · exact ⟨x, List.mem_cons_of_mem _ hx, Nat.le_refl _, Nat.le_refl _⟩

theorem cover_joinFree {bs : List Block} {start stop : Nat} (h : Abut start bs stop) {b : Block}
    (hb : b ∈ bs) : ∃ c ∈ joinFree bs, c.bp ≤ b.bp ∧ b.stop ≤ c.stop := by
  induction bs generalizing start with
  | nil => cases hb
  | cons a bs ih =>
    have hjoined : Abut a.stop (joinFree bs) stop := abut_joinFree h.2
    show ∃ c ∈ a.attach (joinFree bs), _
    rcases List.mem_cons.1 hb with rfl | hb
    · exact cover_attach hjoined List.mem_cons_self
    · obtain ⟨c, hc, hlow, hhigh⟩ := ih h.2 hb
      obtain ⟨d, hd, hlow', hhigh'⟩ := cover_attach hjoined (List.mem_cons_of_mem _ hc)
      exact ⟨d, hd, Nat.le_trans hlow' hlow, Nat.le_trans hhigh hhigh'⟩

theorem home_home {ns ks : List Block} {start stop : Nat} (hns : Abut start ns stop)
    (hks : Abut start ks stop) (hcover : ∀ n ∈ ns, ∃ k ∈ ks, k.bp ≤ n.bp ∧ n.stop ≤ k.stop)
    (pos : Nat) : home ks (home ns pos) = home ks pos := by
  by_cases hin : ∃ n ∈ ns, n.bp < pos ∧ pos < n.stop
  · obtain ⟨n, hn, hpos⟩ := hin
    obtain ⟨k, hk, hlow, hhigh⟩ := hcover n hn
    rw [home_of_inside hns hn hpos, home_within hks hk hlow (by omega),
      home_within hks hk (by omega) (by omega)]
  · rw [home_of_not_inside fun n hn hpos => hin ⟨n, hn, hpos⟩]

namespace Outline

variable {o : Outline} {bps : List Nat}

def mark (bps : List Nat) (o : Outline) : Outline :=
  { o with blocks := o.blocks.map (Block.marked bps) }

@[simp] theorem mark_nil : o.mark [] = o := by
  have hid : Block.marked [] = id := funext fun b => if_neg List.not_mem_nil
  simp only [mark, hid, List.map_id]

theorem mark_mark (xs ys : List Nat) : (o.mark xs).mark ys = o.mark (xs ++ ys) := by
  simp only [mark, List.map_map]
  congr 1
  apply List.map_congr_left
  intro b _
  exact Block.marked_append xs ys b

theorem mark_congr {xs ys : List Nat} (h : ∀ bp, bp ∈ xs ↔ bp ∈ ys) : o.mark xs = o.mark ys := by
  have hsame : Block.marked xs = Block.marked ys := by
    funext b
    simp only [Block.marked, h]
  rw [mark, mark, hsame]

theorem unmark_eq_mark (bp : Nat) : o.unmark bp = o.mark [bp] := by
  have hsame : ∀ b : Block, (if b.bp = bp then [b.freed] else [b]) = [b.marked [bp]] := by
    intro b
    by_cases h : b.bp = bp <;> simp [Block.marked, h]
  simp only [unmark, mark, recut, hsame, ← List.map_eq_flatMap]

theorem mark_laid (hl : o.Laid) (bps : List Nat) : (o.mark bps).Laid := by
  refine ⟨abut_marked hl.abut bps, ?_, ?_⟩
  · intro b hb
    obtain ⟨a, ha, rfl⟩ := List.mem_map.1 hb
    rw [Block.size_marked]
    exact hl.sized a ha
  · have hpositions : (o.mark bps).guarded.map Block.bp = o.guarded.map Block.bp := by
      simp [mark, guarded, Function.comp_def]
    show _ ∈ (o.mark bps).guarded.map Block.bp ∨ _
    rw [hpositions]
    exact hl.cursor

/-- Nothing is lost by joining before marking. -/
theorem merge_mark_merge (hl : o.Laid) (bps : List Nat) :
    (o.merge.mark bps).merge = (o.mark bps).merge := by
  have hjoin : joinFree ((joinFree o.blocks).map (Block.marked bps)) =
      joinFree (o.blocks.map (Block.marked bps)) :=
    joinFree_map (fun b hb => Block.marked_of_free hb bps) o.blocks
  have hmarked : Abut 16 ((joinFree o.blocks).map (Block.marked bps)) o.top :=
    (mark_laid (merge_laid hl) bps).abut
  have hcover : ∀ n ∈ joinFree o.blocks, ∃ k ∈ joinFree (o.blocks.map (Block.marked bps)),
      k.bp ≤ n.bp ∧ n.stop ≤ k.stop := by
    intro n hn
    rw [← hjoin, ← n.bp_marked bps, ← n.stop_marked bps]
    exact cover_joinFree hmarked (List.mem_map_of_mem hn)
  have hcursor := home_home (abut_joinFree hl.abut) (abut_joinFree (mark_laid hl bps).abut) hcover
    o.cursor
  simp only [merge, mark, hjoin, Outline.mk.injEq, true_and]
  exact hcursor

theorem release_eq_mark (bp : Nat) : o.release bp = (o.mark [bp]).merge := by
  rw [release, unmark_eq_mark]

theorem releases_eq (hv : o.Valid) (order : List Nat) :
    order.foldl (fun o bp => o.release bp) o = (o.mark order).merge := by
  induction order generalizing o with
  | nil => rw [mark_nil, merge_of_valid hv, List.foldl_nil]
  | cons bp order ih =>
    have hl := mark_laid hv.toLaid [bp]
    rw [List.foldl_cons, release_eq_mark, ih (merge_valid hl), merge_mark_merge hl, mark_mark,
      List.singleton_append]

theorem merge_cursor (hl : o.Laid) :
    (o.cursor = 8 ∨ o.cursor = o.top) ∧ o.merge.cursor = o.cursor ∨
      ∃ b ∈ o.merge.blocks, b.bp ≤ o.cursor ∧ o.cursor < b.stop ∧ o.merge.cursor = b.bp := by
  have habut : Abut 16 (joinFree o.blocks) o.top := abut_joinFree hl.abut
  have hstay : o.cursor = 8 ∨ o.cursor = o.top → o.merge.cursor = o.cursor := by
    intro hends
    apply home_of_not_inside
    intro b hb hin
    have := habut.bounds hb
    omega
  rcases hl.cursor with hc | htop
  · rw [guarded, List.map_cons, List.mem_cons] at hc
    rcases hc with h8 | hc
    · exact .inl ⟨.inl h8, hstay (.inl h8)⟩
    · right
      obtain ⟨a, ha, heq⟩ := List.mem_map.1 hc
      obtain ⟨b, hb, hlow, hhigh⟩ := cover_joinFree hl.abut ha
      have hsize := (hl.sized a ha).1
      have hastop : a.stop = a.bp + a.size := rfl
      have hin : o.cursor < b.stop := by omega
      exact ⟨b, hb, heq ▸ hlow, hin, home_within habut hb (heq ▸ hlow) hin⟩
  · exact .inl ⟨.inr htop, hstay (.inr htop)⟩

theorem mem_held_mark_merge {bp : Nat} : bp ∈ (o.mark bps).merge.held ↔ bp ∈ o.held ∧ bp ∉ bps := by
  rw [held, merge_inUse]
  simp only [List.mem_map, mem_inUse, mark]
  constructor
  · rintro ⟨c, ⟨⟨b, hb, rfl⟩, halloc⟩, rfl⟩
    rw [Block.bp_marked]
    by_cases hin : b.bp ∈ bps
    · simp [Block.marked, hin, Block.freed] at halloc
    · rw [Block.marked, if_neg hin] at halloc
      exact ⟨mem_held.2 ⟨b, hb, halloc, rfl⟩, hin⟩
  · rintro ⟨hheld, hout⟩
    obtain ⟨b, hb, halloc, rfl⟩ := mem_held.1 hheld
    have hsame : b.marked bps = b := if_neg hout
    exact ⟨b, ⟨⟨b, hb, hsame⟩, halloc⟩, rfl⟩

end Outline

def releaseAll : List Nat → HeapM Unit
  | [] => return
  | bp :: order => do
    release bp
    releaseAll order

theorem Heap.releaseAll_run {h : Heap} {o : Outline} {order : List Nat} (hs : h.Sound o)
    (hnodup : order.Nodup) (hheld : ∀ bp ∈ order, bp ∈ o.held) (j : Array Event) :
    ∃ h' j', releaseAll order ⟨h, j⟩ = .ok () ⟨h', j'⟩ ∧
      h'.Sound (order.foldl (fun o bp => o.release bp) o) ∧ h'.live.isSome = h.live.isSome := by
  induction order generalizing h o j with
  | nil => exact ⟨h, j, rfl, hs, rfl⟩
  | cons bp order ih =>
    obtain ⟨hfresh, hnodup⟩ := List.nodup_cons.1 hnodup
    obtain ⟨h₁, j₁, hrun, hs₁, hk₁⟩ := release_run hs (hheld bp List.mem_cons_self) j
    have hheld₁ : ∀ x ∈ order, x ∈ (o.release bp).held := by
      intro x hx
      have hne : x ≠ bp := fun heq => hfresh (heq ▸ hx)
      exact Outline.mem_release_held.2 ⟨hne, hheld x (List.mem_cons_of_mem _ hx)⟩
    obtain ⟨h₂, j₂, hrest, hs₂, htracked⟩ := ih hs₁ hnodup hheld₁ j₁
    refine ⟨h₂, j₂, ?_, hs₂, htracked.trans hk₁.tracked⟩
    rw [releaseAll, bind_ok hrun, hrest]

def LiveBlocks.without (bps : List Nat) (live : LiveBlocks) : LiveBlocks :=
  ⟨live.positions.filter (· ∉ bps), live.ascending.sublist List.filter_sublist⟩

theorem LiveBlocks.mem_without {bps : List Nat} {live : LiveBlocks} {bp : Nat} :
    bp ∈ live.without bps ↔ bp ∈ live ∧ bp ∉ bps := by
  show bp ∈ live.positions.filter (· ∉ bps) ↔ bp ∈ live.positions ∧ bp ∉ bps
  rw [List.mem_filter, decide_eq_true_eq]

/-- What a heap shows after the blocks at `bps` have been released: they are free, every run of free
neighbours is one block, and the cursor is at the start of the block around its old position, unless it
was on a sentinel. -/
structure View.Cleared (bps : List Nat) (v v' : View) : Prop where
  size : v'.size = v.size
  blocks : v'.blocks = v.blocks.map fun bs => joinFree (bs.map (Block.marked bps))
  live : v'.live = v.live.map (·.without bps)
  cursor : (v.cursor = 8 ∨ v.cursor = v.size) ∧ v'.cursor = v.cursor ∨
    ∃ bs, v'.blocks = .ok bs ∧ ∃ b ∈ bs, b.bp ≤ v.cursor ∧ v.cursor < b.stop ∧ v'.cursor = b.bp

variable {bps order : List Nat}

def Outline.viewCleared (bps : List Nat) (live : Option LiveBlocks) (o : Outline) : View :=
  ⟨o.top, .ok (o.mark bps).merge.blocks, (o.mark bps).merge.cursor, live.map (·.without bps)⟩

theorem Heap.releaseAll_view {h : Heap} {o : Outline} (hs : h.Sound o) (hnodup : bps.Nodup)
    (hheld : ∀ bp ∈ bps, bp ∈ o.held) (horder : order.Perm bps) (j : Array Event) :
    ∃ n, releaseAll order ⟨h, j⟩ = .ok () n ∧ n.heap.view = o.viewCleared bps h.live := by
  have hmem : ∀ bp, bp ∈ order ↔ bp ∈ bps := fun bp => horder.mem_iff
  obtain ⟨h', j', hrun, hs', htracked⟩ := releaseAll_run hs (horder.nodup_iff.2 hnodup)
    (fun bp hbp => hheld bp ((hmem bp).1 hbp)) j
  rw [Outline.releases_eq hs.valid, Outline.mark_congr hmem] at hs'
  have hlive : h'.live = h.live.map (·.without bps) := by
    cases hbefore : h.live with
    | none =>
      rw [hbefore] at htracked
      exact Option.not_isSome_iff_eq_none.1 (by simp [htracked])
    | some before =>
      rw [hbefore] at htracked
      obtain ⟨after, hafter⟩ := Option.isSome_iff_exists.1 htracked
      have hsame : after = before.without bps := by
        apply LiveBlocks.ext_mem
        intro x
        rw [hs'.tracks after hafter, LiveBlocks.mem_without, hs.tracks before hbefore,
          Outline.mem_held_mark_merge]
      rw [hafter, hsame]
      rfl
  refine ⟨⟨h', j'⟩, hrun, ?_⟩
  rw [hs'.depicts.view hs'.valid.toLaid, hlive]
  rfl

theorem Heap.Sound.cleared {h : Heap} {o : Outline} (hs : h.Sound o) (bps : List Nat) :
    View.Cleared bps h.view (o.viewCleared bps h.live) := by
  rw [hs.depicts.view hs.valid.toLaid]
  refine ⟨rfl, rfl, rfl, ?_⟩
  rcases Outline.merge_cursor (Outline.mark_laid hs.valid.toLaid bps) with hends | hinside
  · exact .inl hends
  · exact .inr ⟨_, rfl, hinside⟩

namespace Client

/-- Whatever heap a client has come to, the blocks it holds may be released in any order: the heap
shows the same afterwards, and the bytes free are those of its free blocks. -/
theorem honest_run_releases_commute {s t : Settings} (base : Nat) (hs : s.validate = .ok t) :
    ∃ c₀, start s base = .ok c₀ ∧ ∀ acts, obeys honest acts c₀ = true →
      ∃ c, run acts c₀ = .ok c ∧ ∀ bps, bps.Nodup → (∀ bp ∈ bps, c.holds bp = true) →
        ∃ v bs, View.Cleared bps c.heap.view v ∧ v.blocks = .ok bs ∧ ∀ order, order.Perm bps →
          ∃ n, releaseAll order c.session = .ok () n ∧ n.heap.view = v ∧
            n.heap.freeBytes = .ok (freeSum bs) := by
  obtain ⟨c₀, o₀, hstart, hc₀, -, hlive₀⟩ := start_sound base hs
  refine ⟨c₀, hstart, fun acts hobeys => ?_⟩
  obtain ⟨c, o, hrun, hc, -, -⟩ := run_sound (honest_bearable t.checked) hc₀ hlive₀ hobeys
  refine ⟨c, hrun, fun bps hnodup hholds => ?_⟩
  have hheld : ∀ bp ∈ bps, bp ∈ o.held := fun bp hbp => hc.holds_iff.1 (hholds bp hbp)
  refine ⟨_, (o.mark bps).merge.blocks, hc.heap.cleared bps, rfl, fun order horder => ?_⟩
  obtain ⟨n, hrelease, hview⟩ :=
    Heap.releaseAll_view hc.heap hnodup hheld horder c.session.journal
  have hblocks : n.heap.blocks = .ok (o.mark bps).merge.blocks := congrArg View.blocks hview
  exact ⟨n, hrelease, hview, Heap.freeBytes_of_blocks hblocks⟩

theorem three_blocks_releases_commute : ∃ c₀ c, start ⟨12, 256, true⟩ 4096 = .ok c₀ ∧
    run [.allocate 20, .allocate 5, .allocate 40, .write 48 3 ⟨#[9, 9]⟩, .allocate 8] c₀ = .ok c ∧
      ∃ v bs, View.Cleared [16, 48, 112] c.heap.view v ∧ v.blocks = .ok bs ∧
        ∀ order, order.Perm [16, 48, 112] → ∃ n, releaseAll order c.session = .ok () n ∧
          n.heap.view = v ∧ n.heap.freeBytes = .ok (freeSum bs) := by
  have hvalid : Settings.validate ⟨12, 256, true⟩ = .ok ⟨16, 256, true⟩ := by decide +kernel
  have hcheck : ((start ⟨12, 256, true⟩ 4096).map fun c₀ =>
      (obeys honest [.allocate 20, .allocate 5, .allocate 40, .write 48 3 ⟨#[9, 9]⟩, .allocate 8] c₀,
        (run [.allocate 20, .allocate 5, .allocate 40, .write 48 3 ⟨#[9, 9]⟩, .allocate 8] c₀).map
          fun c => [16, 48, 112].all c.holds)) = .ok (true, .ok true) := by
    decide +kernel
  obtain ⟨c₀, hstart, hrun⟩ := honest_run_releases_commute 4096 hvalid
  rw [hstart] at hcheck
  obtain ⟨hobeys, hholds⟩ := Prod.mk.inj (Except.ok.inj hcheck)
  obtain ⟨c, hc, hcommute⟩ := hrun _ hobeys
  rw [hc] at hholds
  have hall : ∀ bp ∈ [16, 48, 112], c.holds bp = true := List.all_eq_true.1 (Except.ok.inj hholds)
  exact ⟨c₀, c, hstart, hc, hcommute _ (by decide) hall⟩

end Client

end BoundaryTag
