import BoundaryTag.Proofs.Tiling
import BoundaryTag.Settings

/-!
# Outlines

The part of a heap that its operations decide by: the blocks between the sentinels, the top and the
cursor. Each operation has its counterpart on outlines, said with lists of blocks alone, and each
counterpart keeps the outline valid: no gap, no two free neighbours, the cursor on a boundary.
-/

set_option autoImplicit false

namespace BoundaryTag

structure Outline where
  blocks : List Block
  top : Nat
  cursor : Nat
deriving DecidableEq

namespace Outline

def prologue : Block := ⟨8, 8, true⟩

def guarded (o : Outline) : List Block := prologue :: o.blocks

def inUse (o : Outline) : List Block := o.blocks.filter (·.allocated)

structure Laid (o : Outline) : Prop where
  abut : Abut 16 o.blocks o.top
  sized : Sized o.blocks
  cursor : Boundary o.guarded o.top o.cursor

structure Valid (o : Outline) : Prop extends Laid o where
  apart : Apart o.blocks

def find? (want : Nat) (o : Outline) : Option Block :=
  (o.guarded.dropWhile (·.bp < o.cursor) ++ o.guarded.takeWhile (·.bp < o.cursor)).find?
    (Block.fits want)

def occupy (b : Block) (want : Nat) (o : Outline) : Outline :=
  { o with
    blocks := recut b.bp (Block.carved want) o.blocks
    cursor := if o.cursor = b.bp then b.bp + b.share want else o.cursor }

def merge (o : Outline) : Outline :=
  { o with blocks := joinFree o.blocks, cursor := home (joinFree o.blocks) o.cursor }

def append (bytes : Nat) (o : Outline) : Outline :=
  { o with blocks := o.blocks ++ [⟨o.top, bytes, false⟩], top := o.top + bytes }

def extend (bytes : Nat) (o : Outline) : Outline := (o.append bytes).merge

def crown (bytes : Nat) (o : Outline) : Block :=
  match o.blocks.getLast? with
  | some b => if b.allocated then ⟨o.top, bytes, false⟩ else ⟨b.bp, b.size + bytes, false⟩
  | none => ⟨o.top, bytes, false⟩

def supply (s : Settings) (want : Nat) (o : Outline) : Option (Block × Outline) :=
  match o.find? want with
  | some b => some (b, { o with cursor := b.bp })
  | none =>
    let bytes := max want s.chunk
    if s.limit - o.top < bytes then none else some (o.crown bytes, o.extend bytes)

def allocate (s : Settings) (size : Nat) (o : Outline) : Option Nat × Outline :=
  if size = 0 then (none, o)
  else
    match blockSizeFor size with
    | none => (none, o)
    | some want =>
      match o.supply s want with
      | none => (none, o)
      | some (b, m) => (some b.bp, m.occupy b want)

def unmark (bp : Nat) (o : Outline) : Outline :=
  { o with blocks := recut bp (fun b => [b.freed]) o.blocks }

def release (bp : Nat) (o : Outline) : Outline := (o.unmark bp).merge

def reallocate (s : Settings) (bp size : Nat) (o : Outline) : Except Refusal Nat × Outline :=
  if size = 0 then (.error .zeroSize, o)
  else
    match o.allocate s size with
    | (none, o) => (.error (.outOfMemory size (s.limit - o.top)), o)
    | (some moved, o) => (.ok moved, o.release bp)

variable {o : Outline}

theorem Laid.guarded_abut (h : o.Laid) : Abut 8 o.guarded o.top := ⟨rfl, h.abut⟩

theorem Laid.guarded_sized (h : o.Laid) : Sized o.guarded := by
  intro b hb
  rcases List.mem_cons.1 hb with rfl | hb
  · decide
  · exact h.sized b hb

theorem Laid.top_ge (h : o.Laid) : 16 ≤ o.top := h.abut.le

theorem Laid.aligned (h : o.Laid) : (∀ b ∈ o.guarded, b.bp % 8 = 0) ∧ o.top % 8 = 0 :=
  h.guarded_abut.aligned h.guarded_sized (by decide)

theorem Laid.bounds (h : o.Laid) {b : Block} (hb : b ∈ o.blocks) :
    16 ≤ b.bp ∧ b.stop ≤ o.top ∧ 8 ≤ b.size ∧ b.size % 8 = 0 :=
  ⟨(h.abut.bounds hb).1, (h.abut.bounds hb).2, h.sized b hb⟩

theorem mem_inUse {b : Block} : b ∈ o.inUse ↔ b ∈ o.blocks ∧ b.allocated = true := List.mem_filter

theorem Valid.guarded_apart (h : o.Valid) : Apart o.guarded :=
  List.isChain_cons.2 ⟨fun _ _ => .inl rfl, h.apart⟩

theorem boundary_blocks {bs : List Block} {top pos : Nat} :
    Boundary (prologue :: bs) top pos ↔ pos = 8 ∨ Boundary bs top pos := by
  simp only [Boundary, List.map_cons, List.mem_cons, or_assoc]
  exact Iff.rfl

theorem merge_laid (h : o.Laid) : o.merge.Laid := by
  have habut : Abut 16 (joinFree o.blocks) o.top := abut_joinFree h.abut
  refine ⟨habut, sized_joinFree h.sized, boundary_blocks.2 ?_⟩
  rcases boundary_blocks.1 h.cursor with h8 | hb
  · left
    show home (joinFree o.blocks) o.cursor = 8
    rw [home_of_not_inside, h8]
    intro b hb hin
    have := (habut.bounds hb).1
    omega
  · right
    obtain ⟨hlow, hhigh⟩ := hb.bounds h.abut
    exact home_boundary habut hlow hhigh

theorem merge_valid (h : o.Laid) : o.merge.Valid := ⟨merge_laid h, apart_joinFree _⟩

@[simp] theorem merge_top : o.merge.top = o.top := rfl

@[simp] theorem merge_inUse : o.merge.inUse = o.inUse := filter_joinFree _

/-- A cursor on a boundary moves only when it is inside the one block that merging makes. -/
theorem cursor_of_merge_blocks {xs mid ys : List Block} {c : Block} (h : o.Laid)
    (hblocks : o.blocks = xs ++ (mid ++ ys)) (hmerge : joinFree o.blocks = xs ++ c :: ys) :
    o.merge.cursor = if c.bp < o.cursor ∧ o.cursor < c.stop then c.bp else o.cursor := by
  have habut : Abut 16 (joinFree o.blocks) o.top := abut_joinFree h.abut
  have hc : c ∈ joinFree o.blocks := by simp [hmerge]
  show home (joinFree o.blocks) o.cursor = _
  split
  · next hin => exact home_of_inside habut hc hin
  · next hout =>
    apply home_of_not_inside
    intro d hd
    have hold : d = c ∨ d ∈ o.blocks := by
      rw [hmerge] at hd
      rw [hblocks]
      simp only [List.mem_append, List.mem_cons] at hd ⊢
      rcases hd with hx | hc | hy
      · exact .inr (.inl hx)
      · exact .inl hc
      · exact .inr (.inr (.inr hy))
    rcases hold with rfl | hold
    · exact hout
    · exact Boundary.not_inside h.guarded_abut h.cursor (List.mem_cons_of_mem _ hold)

theorem merge_of_valid (h : o.Valid) : o.merge = o := by
  have hj : joinFree o.blocks = o.blocks := joinFree_of_apart h.apart
  have hc : home o.blocks o.cursor = o.cursor := home_of_not_inside fun b hb =>
    Boundary.not_inside h.guarded_abut h.cursor (List.mem_cons_of_mem _ hb)
  simp only [merge, hj, hc]

theorem append_laid {bytes : Nat} (h : o.Laid) (hb : 8 ≤ bytes ∧ bytes % 8 = 0) :
    (o.append bytes).Laid := by
  refine ⟨abut_append.2 ⟨o.top, h.abut, rfl, rfl⟩, fun b hmem => ?_, ?_⟩
  · rcases List.mem_append.1 hmem with hmem | hmem
    · exact h.sized b hmem
    · rw [List.mem_singleton.1 hmem]
      exact hb
  · left
    rcases h.cursor with hc | hc
    · have := List.mem_append_left [o.top] hc
      simpa [append, guarded] using this
    · simp [append, guarded, hc]

@[simp] theorem append_inUse {bytes : Nat} : (o.append bytes).inUse = o.inUse := by
  simp [append, inUse]

theorem extend_valid {bytes : Nat} (h : o.Laid) (hb : 8 ≤ bytes ∧ bytes % 8 = 0) :
    (o.extend bytes).Valid := merge_valid (append_laid h hb)

@[simp] theorem extend_top {bytes : Nat} : (o.extend bytes).top = o.top + bytes := rfl

@[simp] theorem extend_inUse {bytes : Nat} : (o.extend bytes).inUse = o.inUse := by
  rw [extend, merge_inUse, append_inUse]

theorem extend_blocks (bytes : Nat) (h : o.Valid) :
    ∃ xs, (o.extend bytes).blocks = xs ++ [o.crown bytes] ∧
      (o.blocks = xs ∧ o.crown bytes = ⟨o.top, bytes, false⟩ ∨
        ∃ b, o.blocks = xs ++ [b] ∧ b.allocated = false ∧
          o.crown bytes = ⟨b.bp, b.size + bytes, false⟩) := by
  rcases List.eq_nil_or_concat o.blocks with hnil | ⟨xs, b, hconcat⟩
  · refine ⟨[], ?_, .inl ⟨hnil, ?_⟩⟩ <;>
      simp [extend, append, merge, crown, hnil, joinFree, Block.attach]
  · rw [List.concat_eq_append] at hconcat
    have hlast : o.blocks.getLast? = some b := by simp [hconcat]
    have hap := h.apart
    have habut := h.abut
    rw [hconcat] at hap habut
    have hb : b.stop = o.top := (abut_middle.1 habut).2
    cases ha : b.allocated with
    | true =>
      refine ⟨xs ++ [b], ?_, .inl ⟨hconcat, by simp [crown, hlast, ha]⟩⟩
      have hjoin : joinFree (xs ++ [b] ++ [⟨o.top, bytes, false⟩]) =
          xs ++ [b] ++ [⟨o.top, bytes, false⟩] := by
        apply joinFree_of_apart
        refine List.isChain_append.2 ⟨hap, List.isChain_singleton _, fun c hc d _ => .inl ?_⟩
        have : b = c := by simpa using hc
        exact this ▸ ha
      simpa [extend, append, merge, crown, hlast, ha, hconcat] using hjoin
    | false =>
      refine ⟨xs, ?_, .inr ⟨b, hconcat, ha, by simp [crown, hlast, ha]⟩⟩
      have hpair : joinFree [b, ⟨o.top, bytes, false⟩] = [⟨b.bp, b.size + bytes, false⟩] := by
        simp [joinFree, Block.attach, ha]
      have hleft : Apart (xs ++ [⟨b.bp, b.size + bytes, false⟩]) := by
        obtain ⟨hxs, -, hseam⟩ := List.isChain_append.1 hap
        refine List.isChain_append.2 ⟨hxs, List.isChain_singleton _, fun c hc d _ => .inl ?_⟩
        simpa [ha] using hseam c hc b (by simp)
      have hjoin := joinFree_append hpair hleft
      simpa [extend, append, merge, crown, hlast, ha, hconcat] using hjoin

theorem crown_mem (bytes : Nat) (h : o.Valid) :
    o.crown bytes ∈ (o.extend bytes).blocks ∧ (o.crown bytes).allocated = false ∧
      bytes ≤ (o.crown bytes).size := by
  obtain ⟨xs, hblocks, hcase⟩ := extend_blocks bytes h
  refine ⟨by simp [hblocks], ?_⟩
  rcases hcase with ⟨-, hcrown⟩ | ⟨b, -, -, hcrown⟩ <;> simp [hcrown]

theorem eq_crown {bytes : Nat} {c : Block} (h : o.Valid) (hb : 8 ≤ bytes ∧ bytes % 8 = 0)
    (hc : c ∈ (o.extend bytes).blocks) (hstop : o.top + bytes ≤ c.stop) : c = o.crown bytes := by
  have hv := extend_valid h.toLaid hb
  have hmem := (crown_mem bytes h).1
  have hsize := (hv.bounds hmem).2.2.1
  obtain ⟨xs, hblocks, -⟩ := extend_blocks bytes h
  have habut := hv.abut
  rw [hblocks] at habut
  have hlast : (o.crown bytes).stop = o.top + bytes := (abut_middle.1 habut).2
  have hcstop := (hv.bounds hc).2
  rcases hv.abut.disjoint hc hmem with heq | hd | hd
  · exact heq
  · simp only [Block.stop] at *
    omega
  · simp only [extend_top, Block.stop] at *
    omega

theorem Laid.split (h : o.Laid) {b : Block} (hb : b ∈ o.blocks) :
    ∃ xs ys, o.blocks = xs ++ b :: ys ∧ ∀ f, recut b.bp f o.blocks = xs ++ f b ++ ys := by
  obtain ⟨xs, ys, hsplit⟩ := List.append_of_mem hb
  have habut := h.abut
  have hsized := h.sized
  rw [hsplit] at habut hsized
  exact ⟨xs, ys, hsplit, fun f => by rw [hsplit, recut_middle habut hsized]⟩

theorem occupy_blocks {b : Block} (want : Nat) {xs ys : List Block}
    (hrecut : ∀ f, recut b.bp f o.blocks = xs ++ f b ++ ys) :
    (o.occupy b want).blocks = xs ++ (b.carved want ++ ys) := by
  rw [← List.append_assoc]
  exact hrecut _

theorem occupy_boundary {b : Block} {want : Nat} (h : o.Laid) (hb : b ∈ o.blocks) :
    Boundary (o.occupy b want).guarded o.top (o.occupy b want).cursor := by
  obtain ⟨xs, ys, hsplit, hrecut⟩ := h.split hb
  have habut := h.abut
  rw [hsplit] at habut
  have hnext : Boundary ys o.top b.stop := (abut_middle.1 habut).2.boundary
  have hguarded : (o.occupy b want).guarded = (prologue :: xs) ++ (b.carved want ++ ys) := by
    rw [guarded, occupy_blocks want hrecut, List.cons_append]
  rw [hguarded]
  by_cases hc : o.cursor = b.bp
  · have hcur : (o.occupy b want).cursor = b.bp + b.share want := if_pos hc
    rw [hcur]
    apply Boundary.append_left
    simp only [Block.carved, Block.share]
    split
    · exact .inl (by simp)
    · exact hnext.append_left
  · have hcur : (o.occupy b want).cursor = o.cursor := if_neg hc
    rw [hcur]
    rcases h.cursor with hmem | htop
    · rw [guarded, hsplit] at hmem
      simp only [List.map_cons, List.map_append, List.mem_cons, List.mem_append, hc, false_or]
        at hmem
      left
      simp only [List.map_cons, List.map_append, List.cons_append, List.mem_cons, List.mem_append]
      rcases hmem with h8 | hx | hy
      · exact .inl h8
      · exact .inr (.inl hx)
      · exact .inr (.inr (.inr hy))
    · exact .inr htop

theorem apart_carved {b : Block} {want : Nat} {xs ys : List Block} (h : Apart (xs ++ b :: ys))
    (hfree : b.allocated = false) : Apart (xs ++ (b.carved want ++ ys)) := by
  obtain ⟨hxs, -, hys, hhead⟩ := apart_around h hfree
  have hcarved : Apart (b.carved want ++ ys) := by
    simp only [Block.carved]
    split
    · exact List.isChain_cons.2 ⟨fun _ _ => .inl rfl,
        List.isChain_cons.2 ⟨fun c hc => .inr (hhead c hc), hys⟩⟩
    · exact List.isChain_cons.2 ⟨fun _ _ => .inl rfl, hys⟩
  have hfirst : ∀ c ∈ (b.carved want ++ ys).head?, c.allocated := by
    intro c hc
    simp only [Block.carved] at hc
    split at hc <;> simp at hc <;> subst hc <;> rfl
  exact List.isChain_append.2 ⟨hxs, hcarved, fun _ _ c hc => .inr (hfirst c hc)⟩

theorem occupy_valid {b : Block} {want : Nat} (h : o.Valid) (hb : b ∈ o.blocks)
    (hfree : b.allocated = false) (hw : 16 ≤ want ∧ want % 8 = 0) (hle : want ≤ b.size) :
    (o.occupy b want).Valid := by
  obtain ⟨xs, ys, hsplit, hrecut⟩ := h.split hb
  have habut := h.abut
  have hsized := h.sized
  have hap := h.apart
  rw [hsplit] at habut hsized hap
  have hblocks := occupy_blocks want hrecut
  have habut' : Abut 16 (o.occupy b want).blocks o.top := by
    obtain ⟨hxs, hys⟩ := abut_middle.1 habut
    rw [hblocks]
    exact abut_append.2 ⟨b.bp, hxs, abut_append.2 ⟨b.stop, abut_carved hle, hys⟩⟩
  have hsized' : Sized (o.occupy b want).blocks := by
    obtain ⟨hxs, hb, hys⟩ := sized_middle.1 hsized
    rw [hblocks]
    exact sized_append.2 ⟨hxs, sized_append.2 ⟨sized_carved hb hw, hys⟩⟩
  have hap' : Apart (o.occupy b want).blocks := by
    rw [hblocks]
    exact apart_carved hap hfree
  exact ⟨⟨habut', hsized', occupy_boundary h.toLaid hb⟩, hap'⟩

theorem mem_occupy_inUse {b : Block} {want : Nat} (h : o.Laid) (hb : b ∈ o.blocks)
    (hfree : b.allocated = false) {c : Block} :
    c ∈ (o.occupy b want).inUse ↔ c = ⟨b.bp, b.share want, true⟩ ∨ c ∈ o.inUse := by
  obtain ⟨xs, ys, hsplit, hrecut⟩ := h.split hb
  have hnew : (o.occupy b want).inUse =
      xs.filter (·.allocated) ++ ⟨b.bp, b.share want, true⟩ :: ys.filter (·.allocated) := by
    rw [inUse, occupy_blocks want hrecut, List.filter_append, List.filter_append, filter_carved]
    rfl
  have hold : o.inUse = xs.filter (·.allocated) ++ ys.filter (·.allocated) := by
    rw [inUse, hsplit, List.filter_append, List.filter_cons_of_neg (by simp [hfree])]
  rw [hnew, hold, List.mem_append, List.mem_cons, List.mem_append, or_left_comm]

theorem unmark_blocks {b : Block} {xs ys : List Block}
    (hrecut : ∀ f, recut b.bp f o.blocks = xs ++ f b ++ ys) :
    (o.unmark b.bp).blocks = xs ++ b.freed :: ys := by
  rw [unmark, hrecut fun c => [c.freed], List.append_assoc, List.singleton_append]

theorem unmark_laid {b : Block} (h : o.Laid) (hb : b ∈ o.blocks) : (o.unmark b.bp).Laid := by
  obtain ⟨xs, ys, hsplit, hrecut⟩ := h.split hb
  have hblocks := unmark_blocks hrecut
  have habut := h.abut
  have hsized := h.sized
  have hcursor := h.cursor
  rw [hsplit] at habut hsized
  rw [guarded, hsplit] at hcursor
  have habut' : Abut 16 (o.unmark b.bp).blocks o.top := by
    rw [hblocks]
    obtain ⟨hxs, hys⟩ := abut_middle.1 habut
    exact abut_middle.2 ⟨hxs, hys⟩
  have hsized' : Sized (o.unmark b.bp).blocks := by
    rw [hblocks]
    obtain ⟨hxs, hb, hys⟩ := sized_middle.1 hsized
    exact sized_middle.2 ⟨hxs, hb, hys⟩
  have hcursor' : Boundary (o.unmark b.bp).guarded o.top o.cursor := by
    rw [guarded, hblocks]
    simpa [Boundary, Block.freed] using hcursor
  exact ⟨habut', hsized', hcursor'⟩

theorem release_valid {b : Block} (h : o.Laid) (hb : b ∈ o.blocks) : (o.release b.bp).Valid :=
  merge_valid (unmark_laid h hb)

@[simp] theorem release_top {bp : Nat} : (o.release bp).top = o.top := rfl

theorem mem_release_inUse {bp : Nat} {c : Block} :
    c ∈ (o.release bp).inUse ↔ c ∈ o.inUse ∧ c.bp ≠ bp := by
  rw [release, merge_inUse, mem_inUse, mem_inUse, unmark, mem_recut]
  constructor
  · rintro ⟨⟨b, -, -, hc⟩ | ⟨hc, hne⟩, ha⟩
    · rw [List.mem_singleton.1 hc] at ha
      cases ha
    · exact ⟨⟨hc, ha⟩, hne⟩
  · rintro ⟨⟨hc, ha⟩, hne⟩
    exact ⟨.inr ⟨hc, hne⟩, ha⟩

def Roomy (o : Outline) : Prop := ∀ b ∈ o.blocks, 16 ≤ b.size

theorem merge_roomy (h : o.Roomy) : o.merge.Roomy :=
  forall_joinFree (P := fun n => 16 ≤ n) (fun m n hm _ => Nat.le_trans hm (Nat.le_add_right m n)) h

theorem extend_roomy {bytes : Nat} (h : o.Roomy) (hb : 16 ≤ bytes) : (o.extend bytes).Roomy := by
  apply merge_roomy
  intro b hmem
  rcases List.mem_append.1 hmem with hmem | hmem
  · exact h b hmem
  · rw [List.mem_singleton.1 hmem]
    exact hb

theorem occupy_roomy {b : Block} {want : Nat} (h : o.Roomy) (hw : 16 ≤ want) :
    (o.occupy b want).Roomy := by
  intro c hc
  rcases mem_recut.1 hc with ⟨d, hd, -, hc⟩ | ⟨hc, -⟩
  · exact forall_carved (P := fun n => 16 ≤ n) (h d hd) hw id c hc
  · exact h c hc

theorem release_roomy {bp : Nat} (h : o.Roomy) : (o.release bp).Roomy := by
  apply merge_roomy
  intro c hc
  rcases mem_recut.1 hc with ⟨d, hd, -, hc⟩ | ⟨hc, -⟩
  · rw [List.mem_singleton.1 hc]
    exact h d hd
  · exact h c hc

end Outline

end BoundaryTag
