import BoundaryTag.Proofs.Releasing

/-!
# Clients

A client runs acts against a heap and keeps its own account of what it holds: which blocks, how much
room each had when it was handed out, and the bytes that should stand in it. Whatever a client does
within the rules keeps the heap sound and the account true.
-/

set_option autoImplicit false

namespace BoundaryTag

inductive Act where
  | allocate (size : Nat)
  | release (bp : Nat)
  | reallocate (bp size : Nat)
  | write (bp start : Nat) (data : ByteArray)

def Outline.after (s : Settings) (o : Outline) : Act → Outline
  | .allocate size => (o.allocate s size).2
  | .release bp => if bp ∈ o.held then o.release bp else o
  | .reallocate bp size => if bp ∈ o.held then (o.reallocate s bp size).2 else o
  | .write .. => o

/-- A block as its owner knows it: its room and its bytes when it was handed out, the bytes overwritten
by the writes made through it since. -/
structure Holding where
  bp : Nat
  room : Nat
  bytes : ByteArray

def Holding.overwrite (start : Nat) (data : ByteArray) (x : Holding) : Holding :=
  { x with bytes := ((⟨x.bytes⟩ : Region).blit start data).bytes }

structure Client where
  session : Session
  holdings : List Holding

namespace Client

def heap (c : Client) : Heap := c.session.heap

def start (s : Settings) (base : Nat) : Except Failure Client :=
  (Heap.create s (.ok base)).map fun session => ⟨session, []⟩

def holds (bp : Nat) (c : Client) : Bool := c.holdings.any (·.bp == bp)

def take (bp : Nat) (c : Client) : Except Trap Client := do
  let room ← c.heap.payloadSize bp
  let bytes ← c.heap.payload bp
  return { c with holdings := ⟨bp, room, bytes⟩ :: c.holdings }

def drop (bp : Nat) (c : Client) : Client :=
  { c with holdings := c.holdings.filter (·.bp != bp) }

def overwrite (bp start : Nat) (data : ByteArray) (c : Client) : Client :=
  { c with holdings := c.holdings.map fun x => if x.bp = bp then x.overwrite start data else x }

/-- Goes on after an operation. A refusal and the trap on a block that is not live leave the account as
it was; any other trap ends the run. -/
def after {α : Type} (c : Client) (result : EStateM.Result Failure Session α)
    (next : α → Client → Except Trap Client) : Except Trap Client :=
  match result with
  | .ok x s => next x { c with session := s }
  | .error (.refused _) s => .ok { c with session := s }
  | .error (.trapped (.notLive _ _)) s => .ok { c with session := s }
  | .error (.trapped t) _ => .error t

def step (c : Client) : Act → Except Trap Client
  | .allocate size => c.after (BoundaryTag.allocate size c.session) fun found c =>
    match found with
    | none => .ok c
    | some bp => c.take bp
  | .release bp => c.after (BoundaryTag.release bp c.session) fun _ c => .ok (c.drop bp)
  | .reallocate bp size => c.after (BoundaryTag.reallocate bp size c.session) fun moved c =>
    (c.drop bp).take moved
  | .write bp start data => c.after (writePayload bp start data c.session) fun _ c =>
    .ok (c.overwrite bp start data)

def run : List Act → Client → Except Trap Client
  | [], c => .ok c
  | act :: acts, c => c.step act >>= run acts

def heapAfter (s : Settings) (base : Nat) (acts : List Act) : Except Failure Heap := do
  let c₀ ← start s base
  let c ← (run acts c₀).mapError Failure.trapped
  return c.heap

def ownsRange (bp start : Nat) (data : ByteArray) (c : Client) : Bool :=
  c.holdings.any fun x => x.bp == bp && start + data.size ≤ x.room

def honest (c : Client) : Act → Bool
  | .allocate _ => true
  | .release bp => c.holds bp
  | .reallocate bp _ => c.holds bp
  | .write bp start data => c.ownsRange bp start data

def careless (c : Client) : Act → Bool
  | .write bp start data => c.ownsRange bp start data
  | _ => true

/-- The rule of the honest, and that of the careless where live blocks are tracked. -/
def permitted (c : Client) (act : Act) : Bool :=
  c.honest act || c.heap.live.isSome && c.careless act

def obeys (rule : Client → Act → Bool) : List Act → Client → Bool
  | [], _ => true
  | act :: acts, c => rule c act &&
    match c.step act with
    | .ok c => obeys rule acts c
    | .error _ => true

structure Owns (h : Heap) (o : Outline) (x : Holding) : Prop where
  block : ∃ b ∈ o.inUse, b.bp = x.bp ∧ x.room = b.size - 8
  payload : h.payload x.bp = .ok x.bytes

/-- The heap depicts the outline and the client holds just the blocks in use. -/
structure Sound (c : Client) (o : Outline) : Prop where
  heap : c.heap.Sound o
  sealed : c.heap.region.Sealed
  stocked : 16 < o.top
  owns : ∀ x ∈ c.holdings, Owns c.heap o x
  holds : ∀ bp, bp ∈ o.held → bp ∈ c.holdings.map Holding.bp
  distinct : (c.holdings.map Holding.bp).Nodup

variable {c : Client} {o : Outline}

theorem Sound.held (hc : c.Sound o) {x : Holding} (hx : x ∈ c.holdings) : x.bp ∈ o.held := by
  obtain ⟨b, hb, heq, -⟩ := (hc.owns x hx).block
  exact heq ▸ List.mem_map_of_mem hb

theorem Sound.holds_iff (hc : c.Sound o) {bp : Nat} : c.holds bp = true ↔ bp ∈ o.held := by
  simp only [Client.holds, List.any_eq_true, beq_iff_eq]
  constructor
  · rintro ⟨x, hx, rfl⟩
    exact hc.held hx
  · intro hbp
    obtain ⟨x, hx, heq⟩ := List.mem_map.1 (hc.holds bp hbp)
    exact ⟨x, hx, heq⟩

theorem Owns.keep {h h' : Heap} {o' : Outline} {ks : List Block} {x : Holding} (hx : Owns h o x)
    (hs : h.Sound o) (hs' : h'.Sound o') (hk : h.Keeps h' ks)
    (hks : ∀ b ∈ o.inUse, b.bp = x.bp → b ∈ ks ∧ b ∈ o'.inUse) : Owns h' o' x := by
  obtain ⟨b, hb, heq, hroom⟩ := hx.block
  obtain ⟨hbk, hb'⟩ := hks b hb heq
  have hsame := hk.payload hs hs' hbk (Outline.mem_inUse.1 hb).1 (Outline.mem_inUse.1 hb').1
  rw [heq, hx.payload] at hsame
  exact ⟨⟨b, hb', heq, hroom⟩, hsame⟩

theorem Owns.overwrite {h h' : Heap} {x : Holding} {b : Block} {start : Nat} {data : ByteArray}
    (hx : Owns h o x) (hs : h.Sound o) (hs' : h'.Sound o) (hb : b ∈ o.blocks) (hbp : b.bp = x.bp)
    (hfit : start + data.size ≤ b.size - 8)
    (hregion : h'.region = h.region.blit (x.bp + start) data) :
    Owns h' o (x.overwrite start data) := by
  have hl := hs.valid.toLaid
  have hpayload := hs.depicts.payload hl hb
  have hpayload' := hs'.depicts.payload hl hb
  have hbounds := hl.bounds hb
  have hsize := hs.depicts.region.size
  simp only [Block.stop] at hbounds
  rw [hbp] at hpayload hpayload' hbounds
  have hbytes : x.bytes = h.region.bytes.extract x.bp (x.bp + (b.size - 8)) :=
    Except.ok.inj (hx.payload.symm.trans hpayload)
  refine ⟨hx.block, ?_⟩
  show h'.payload x.bp = .ok ((⟨x.bytes⟩ : Region).blit start data).bytes
  rw [hpayload', hregion, hbytes, Region.extract_blit (by omega) (by omega)]

theorem Sound.mem_positions (hc : c.Sound o) {bp : Nat} :
    bp ∈ c.holdings.map Holding.bp ↔ bp ∈ o.held := by
  constructor
  · intro hbp
    obtain ⟨x, hx, rfl⟩ := List.mem_map.1 hbp
    exact hc.held hx
  · exact hc.holds bp

theorem mem_drop {bp : Nat} {x : Holding} :
    x ∈ (c.drop bp).holdings ↔ x ∈ c.holdings ∧ x.bp ≠ bp := by
  simp [drop]

theorem drop_positions {bp y : Nat} : y ∈ (c.drop bp).holdings.map Holding.bp ↔
    y ≠ bp ∧ y ∈ c.holdings.map Holding.bp := by
  simp only [List.mem_map, mem_drop]
  constructor
  · rintro ⟨x, ⟨hx, hne⟩, rfl⟩
    exact ⟨hne, x, hx, rfl⟩
  · rintro ⟨hne, x, hx, rfl⟩
    exact ⟨x, ⟨hx, hne⟩, rfl⟩

theorem Sound.drop_distinct (hc : c.Sound o) (bp : Nat) :
    ((c.drop bp).holdings.map Holding.bp).Nodup :=
  hc.distinct.sublist (List.filter_sublist.map _)

theorem Sound.drop_owns {h' : Heap} {o' : Outline} {bp : Nat} (hc : c.Sound o) (hs' : h'.Sound o')
    (hk : c.heap.Keeps h' (o.release bp).inUse)
    (hkept : ∀ b ∈ (o.release bp).inUse, b ∈ o'.inUse) :
    ∀ x ∈ (c.drop bp).holdings, Owns h' o' x := by
  intro x hx
  obtain ⟨hx, hne⟩ := mem_drop.1 hx
  apply (hc.owns x hx).keep hc.heap hs' hk
  intro b hb heq
  have hb' := Outline.mem_release_inUse.2 ⟨hb, fun hbp => hne (heq.symm.trans hbp)⟩
  exact ⟨hb', hkept b hb'⟩

theorem take_sound {b : Block} (hs : c.heap.Sound o) (hsealed : c.heap.region.Sealed)
    (hstocked : 16 < o.top) (hb : b ∈ o.inUse) (howns : ∀ x ∈ c.holdings, Owns c.heap o x)
    (hholds : ∀ bp, bp ∈ o.held → bp = b.bp ∨ bp ∈ c.holdings.map Holding.bp)
    (hfresh : b.bp ∉ c.holdings.map Holding.bp) (hdistinct : (c.holdings.map Holding.bp).Nodup) :
    ∃ c', c.take b.bp = .ok c' ∧ c'.Sound o ∧ c'.heap = c.heap := by
  have hmem := (Outline.mem_inUse.1 hb).1
  have hl := hs.valid.toLaid
  obtain ⟨bytes, hpayload⟩ : ∃ bytes, c.heap.payload b.bp = .ok bytes :=
    ⟨_, hs.depicts.payload hl hmem⟩
  refine ⟨{ c with holdings := ⟨b.bp, b.size - 8, bytes⟩ :: c.holdings }, ?_,
    ⟨hs, hsealed, hstocked, ?_, ?_, List.nodup_cons.2 ⟨hfresh, hdistinct⟩⟩, rfl⟩
  · simp only [take, hs.depicts.payloadSize hl hmem, hpayload, bind, Except.bind, pure, Except.pure]
  · intro x hx
    rcases List.mem_cons.1 hx with rfl | hx
    · exact ⟨⟨b, hb, rfl, rfl⟩, hpayload⟩
    · exact howns x hx
  · intro bp hbp
    rw [List.map_cons, List.mem_cons]
    exact hholds bp hbp

def Permitted (c : Client) (act : Act) : Prop :=
  c.honest act = true ∨ c.heap.live.isSome = true ∧ c.careless act = true

structure Retains (c c' : Client) : Prop where
  settings : c'.heap.settings = c.heap.settings
  base : c'.heap.arena.base = c.heap.arena.base
  tracked : c'.heap.live.isSome = c.heap.live.isSome

theorem Retains.refl (c : Client) : c.Retains c := ⟨rfl, rfl, rfl⟩

theorem Retains.trans {c₁ c₂ : Client} (h : c.Retains c₁) (h' : c₁.Retains c₂) : c.Retains c₂ :=
  ⟨h'.settings.trans h.settings, h'.base.trans h.base, h'.tracked.trans h.tracked⟩

theorem retains_of_keeps {c' : Client} {h' : Heap} {ks : List Block} (hheap : c'.heap = h')
    (hk : c.heap.Keeps h' ks) : c.Retains c' := by
  subst hheap
  exact ⟨hk.settings, hk.base, hk.tracked⟩

def Advances (c : Client) (act : Act) (o' : Outline) : Prop :=
  ∃ c', c.step act = .ok c' ∧ c'.Sound o' ∧ c.Retains c'

theorem Sound.journal (hc : c.Sound o) (j : Array Event) :
    Sound { c with session := ⟨c.heap, j⟩ } o :=
  ⟨hc.heap, hc.sealed, hc.stocked, hc.owns, hc.holds, hc.distinct⟩

theorem Permitted.tracked {act : Act} {bp : Nat} (hact : c.Permitted act) (hc : c.Sound o)
    (hnames : c.honest act = c.holds bp) (hbp : bp ∉ o.held) : ∃ live, c.heap.live = some live := by
  rcases hact with hact | ⟨hlive, -⟩
  · rw [hnames, hc.holds_iff] at hact
    exact absurd hact hbp
  · exact Option.isSome_iff_exists.1 hlive

theorem allocate_advances (hc : c.Sound o) (size : Nat) :
    c.Advances (.allocate size) (o.allocate c.heap.settings size).2 := by
  obtain ⟨⟨h, j⟩, holdings⟩ := c
  have hs : h.Sound o := hc.heap
  show Client.Advances _ _ (o.allocate h.settings size).2
  rcases Heap.allocate_run hs size j with
    ⟨j', hrun, ho⟩ | ⟨b, o', h', j', hrun, ho, hg, hs', hk⟩
  · rw [ho]
    refine ⟨⟨⟨h, j'⟩, holdings⟩, ?_, hc.journal j', ⟨rfl, rfl, rfl⟩⟩
    simp only [step, hrun, after]
  · rw [ho]
    have howns : ∀ x ∈ holdings, Owns h' o' x := fun x hx =>
      (hc.owns x hx).keep hs hs' hk fun a ha _ => ⟨ha, hg.old ha⟩
    have hholds : ∀ bp, bp ∈ o'.held → bp = b.bp ∨ bp ∈ holdings.map Holding.bp := fun bp hbp =>
      (hg.mem_held.1 hbp).imp_right (hc.holds bp)
    have hfresh : b.bp ∉ holdings.map Holding.bp := fun hmem => hg.fresh (hc.mem_positions.1 hmem)
    obtain ⟨c', htake, hc', hheap⟩ := take_sound (c := ⟨⟨h', j'⟩, holdings⟩) hs' (hk.sealed hc.sealed)
      (Nat.lt_of_lt_of_le hc.stocked hg.rises) hg.mem howns hholds hfresh hc.distinct
    refine ⟨c', ?_, hc', retains_of_keeps hheap hk⟩
    simp only [step, hrun, after]
    exact htake

theorem release_advances (hc : c.Sound o) {bp : Nat} (hact : c.Permitted (.release bp)) :
    c.Advances (.release bp) (if bp ∈ o.held then o.release bp else o) := by
  obtain ⟨⟨h, j⟩, holdings⟩ := c
  have hs : h.Sound o := hc.heap
  by_cases hbp : bp ∈ o.held
  · rw [if_pos hbp]
    obtain ⟨h', j', hrun, hs', hk⟩ := Heap.release_run hs hbp j
    refine ⟨Client.drop bp ⟨⟨h', j'⟩, holdings⟩, ?_, ?_, retains_of_keeps rfl hk⟩
    · simp only [step, hrun, after]
    · refine ⟨hs', hk.sealed hc.sealed, hc.stocked, hc.drop_owns hs' hk fun _ hb => hb, ?_,
        hc.drop_distinct bp⟩
      intro y hy
      obtain ⟨hne, hy⟩ := Outline.mem_release_held.1 hy
      exact drop_positions.2 ⟨hne, hc.holds y hy⟩
  · rw [if_neg hbp]
    obtain ⟨live, hlive⟩ := hact.tracked hc rfl hbp
    have hrun := Heap.release_foreign hs hlive hbp j
    refine ⟨⟨⟨h, j⟩, holdings⟩, ?_, hc, Retains.refl _⟩
    simp only [step, hrun, after]

theorem reallocate_advances (hc : c.Sound o) {bp size : Nat}
    (hact : c.Permitted (.reallocate bp size)) : c.Advances (.reallocate bp size)
      (if bp ∈ o.held then (o.reallocate c.heap.settings bp size).2 else o) := by
  obtain ⟨⟨h, j⟩, holdings⟩ := c
  have hs : h.Sound o := hc.heap
  show Client.Advances _ _ (if bp ∈ o.held then (o.reallocate h.settings bp size).2 else o)
  by_cases hbp : bp ∈ o.held
  · rw [if_pos hbp]
    rcases Heap.reallocate_run hs hbp size j with
      ⟨why, j', hrun, ho⟩ | ⟨b, o₁, h', j', hrun, ho, hg, hs', hk, -⟩
    · rw [ho]
      refine ⟨⟨⟨h, j'⟩, holdings⟩, ?_, hc.journal j', ⟨rfl, rfl, rfl⟩⟩
      simp only [step, hrun, after]
    · rw [ho]
      have hb := hg.mem_release hbp
      have howns := hc.drop_owns hs' hk fun a ha => hg.old_release ha
      have hholds : ∀ y, y ∈ (o₁.release bp).held →
          y = b.bp ∨ y ∈ (Client.drop bp ⟨⟨h, j⟩, holdings⟩).holdings.map Holding.bp := by
        intro y hy
        obtain ⟨hne, hy⟩ := Outline.mem_release_held.1 hy
        exact (hg.mem_held.1 hy).imp_right fun hy => drop_positions.2 ⟨hne, hc.holds y hy⟩
      have hfresh : b.bp ∉ (Client.drop bp ⟨⟨h, j⟩, holdings⟩).holdings.map Holding.bp := by
        intro hmem
        exact hg.fresh (hc.mem_positions.1 (drop_positions.1 hmem).2)
      obtain ⟨c', htake, hc', hheap⟩ := take_sound (c := Client.drop bp ⟨⟨h', j'⟩, holdings⟩) hs'
        (hk.sealed hc.sealed) (Nat.lt_of_lt_of_le hc.stocked hg.rises) hb howns hholds hfresh
        (hc.drop_distinct bp)
      refine ⟨c', ?_, hc', retains_of_keeps hheap hk⟩
      simp only [step, hrun, after]
      exact htake
  · rw [if_neg hbp]
    obtain ⟨live, hlive⟩ := hact.tracked hc rfl hbp
    have hrun := Heap.reallocate_foreign hs hlive hbp size j
    refine ⟨⟨⟨h, j⟩, holdings⟩, ?_, hc, Retains.refl _⟩
    simp only [step, hrun, after]

theorem overwrite_positions (bp start : Nat) (data : ByteArray) (c : Client) :
    (c.overwrite bp start data).holdings.map Holding.bp = c.holdings.map Holding.bp := by
  rw [overwrite, List.map_map]
  apply List.map_congr_left
  intro x _
  by_cases h : x.bp = bp <;> simp [h, Holding.overwrite]

theorem write_advances (hc : c.Sound o) {bp start : Nat} {data : ByteArray}
    (hact : c.Permitted (.write bp start data)) : c.Advances (.write bp start data) o := by
  have howns : c.ownsRange bp start data = true := by
    rcases hact with hact | ⟨-, hact⟩
    · exact hact
    · exact hact
  obtain ⟨⟨h, j⟩, holdings⟩ := c
  have hs : h.Sound o := hc.heap
  obtain ⟨x, hx, hrange⟩ := List.any_eq_true.1 howns
  simp only [Bool.and_eq_true, beq_iff_eq, decide_eq_true_eq] at hrange
  obtain ⟨rfl, hfit⟩ := hrange
  obtain ⟨b, hb, hbp, hroom⟩ := (hc.owns x hx).block
  rw [hroom] at hfit
  have hmem := (Outline.mem_inUse.1 hb).1
  have hothers : ∀ a ∈ o.inUse.filter (·.bp ≠ b.bp), a ∈ o.blocks ∧ a ≠ b := by
    intro a ha
    obtain ⟨ha, hne⟩ := List.mem_filter.1 ha
    refine ⟨(Outline.mem_inUse.1 ha).1, fun heq => ?_⟩
    simp [heq] at hne
  obtain ⟨h', hrun, hs', hk, hregion⟩ := Heap.writePayload_run hs hmem hfit hothers j
  rw [hbp] at hrun hregion
  refine ⟨Client.overwrite x.bp start data ⟨⟨h', j⟩, holdings⟩, ?_, ?_, retains_of_keeps rfl hk⟩
  · simp only [step, hrun, after]
  · refine ⟨hs', hk.sealed hc.sealed, hc.stocked, ?_, ?_, ?_⟩
    · intro y hy
      obtain ⟨z, hz, rfl⟩ := List.mem_map.1 hy
      by_cases hzx : z.bp = x.bp
      · rw [if_pos hzx]
        rw [← hzx] at hregion
        exact (hc.owns z hz).overwrite hs hs' hmem (hbp.trans hzx.symm) hfit hregion
      · rw [if_neg hzx]
        apply (hc.owns z hz).keep hs hs' hk
        intro a ha heq
        refine ⟨List.mem_filter.2 ⟨ha, ?_⟩, ha⟩
        simpa [hbp, heq] using hzx
    · intro y hy
      rw [overwrite_positions]
      exact hc.holds y hy
    · rw [overwrite_positions]
      exact hc.distinct

theorem step_advances (hc : c.Sound o) {act : Act} (hact : c.Permitted act) :
    c.Advances act (o.after c.heap.settings act) := by
  cases act with
  | allocate size => exact allocate_advances hc size
  | release bp => exact release_advances hc hact
  | reallocate bp size => exact reallocate_advances hc hact
  | write bp start data => exact write_advances hc hact

def Bearable (rule : Client → Act → Bool) (tracked : Bool) : Prop :=
  ∀ c act, c.heap.live.isSome = tracked → rule c act = true → c.Permitted act

theorem honest_bearable (tracked : Bool) : Bearable honest tracked :=
  fun _ _ _ hact => .inl hact

theorem careless_bearable : Bearable careless true :=
  fun _ _ hlive hact => .inr ⟨hlive, hact⟩

theorem permitted_bearable (tracked : Bool) : Bearable permitted tracked := by
  intro c act _ hact
  simp only [permitted, Bool.or_eq_true, Bool.and_eq_true] at hact
  exact hact

theorem run_follows {rule : Client → Act → Bool} {tracked : Bool} (hrule : Bearable rule tracked)
    {acts : List Act} (hc : c.Sound o) (hlive : c.heap.live.isSome = tracked)
    (hobeys : obeys rule acts c = true) :
    ∃ c', run acts c = .ok c' ∧ c'.Sound (acts.foldl (Outline.after c.heap.settings) o) ∧
      c.Retains c' := by
  induction acts generalizing c o with
  | nil => exact ⟨c, rfl, hc, Retains.refl c⟩
  | cons act acts ih =>
    simp only [obeys, Bool.and_eq_true] at hobeys
    obtain ⟨hact, hrest⟩ := hobeys
    obtain ⟨c₁, hstep, hc₁, hk₁⟩ := step_advances hc (hrule c act hlive hact)
    rw [hstep] at hrest
    obtain ⟨c', hrun, hc', hk'⟩ := ih hc₁ (hk₁.tracked.trans hlive) hrest
    rw [hk₁.settings] at hc'
    refine ⟨c', ?_, hc', hk₁.trans hk'⟩
    rw [run, hstep]
    exact hrun

/-- A run within the rules ends, and the client's account is true. -/
theorem run_sound {rule : Client → Act → Bool} {tracked : Bool} (hrule : Bearable rule tracked)
    {acts : List Act} (hc : c.Sound o) (hlive : c.heap.live.isSome = tracked)
    (hobeys : obeys rule acts c = true) :
    ∃ c' o', run acts c = .ok c' ∧ c'.Sound o' ∧ c'.heap.settings = c.heap.settings ∧
      c'.heap.live.isSome = tracked := by
  obtain ⟨c', hrun, hc', hk⟩ := run_follows hrule hc hlive hobeys
  exact ⟨c', _, hrun, hc', hk.settings, hk.tracked.trans hlive⟩

theorem start_follows {s t : Settings} (base : Nat) (hs : s.validate = .ok t) :
    ∃ c, start s base = .ok c ∧ c.Sound (Outline.bare.extend t.chunk) ∧ c.heap.settings = t ∧
      c.heap.arena.base = base ∧ c.heap.live.isSome = t.checked := by
  obtain ⟨n, hcreate, hsound, hsealed, hsettings, hbase, hlive⟩ := Heap.create_sound base hs
  have hchunk := (Settings.accepted_of_validate hs).1.chunk.1
  have hstocked : 16 < (Outline.bare.extend t.chunk).top := by
    show 16 < 16 + t.chunk
    omega
  refine ⟨⟨n, []⟩, ?_, ⟨hsound, hsealed, hstocked, ?_, ?_, List.nodup_nil⟩, hsettings, hbase, hlive⟩
  · rw [start, hcreate]
    rfl
  · intro x hx
    cases hx
  · intro bp hbp
    rw [Outline.bare_extend_held] at hbp
    cases hbp

theorem start_sound {s t : Settings} (base : Nat) (hs : s.validate = .ok t) :
    ∃ c o, start s base = .ok c ∧ c.Sound o ∧ c.heap.settings = t ∧
      c.heap.live.isSome = t.checked := by
  obtain ⟨c, hstart, hc, hsettings, -, hlive⟩ := start_follows base hs
  exact ⟨c, _, hstart, hc, hsettings, hlive⟩

end Client

end BoundaryTag
