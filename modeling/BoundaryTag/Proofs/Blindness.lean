import BoundaryTag.Proofs.Releasing

/-!
# Steps blind to the live set

An operation goes by the live set where it enters a block, takes one out or demands one, and nowhere
else. All its other steps go by the bytes, the room, the least growth and the cursor alone. They return
the same and do the same to the bytes on any two heaps that have these in common, so a run of them may
be told without a live set, and a run on one heap tells one on another.
-/

set_option autoImplicit false

namespace BoundaryTag

open HeapM

def Heap.tracking (live : Option LiveBlocks) (h : Heap) : Heap := { h with live }

def Session.tracking (live : Option LiveBlocks) (n : Session) : Session :=
  { n with heap := n.heap.tracking live }

@[simp] theorem Heap.tracking_live (h : Heap) : h.tracking h.live = h := rfl

@[simp] theorem Heap.tracking_tracking (h : Heap) (live live' : Option LiveBlocks) :
    (h.tracking live).tracking live' = h.tracking live' := rfl

structure Heap.Alike (h h' : Heap) : Prop where
  region : h.region = h'.region
  spare : h.arena.spare = h'.arena.spare
  capacity : h.arena.capacity = h'.arena.capacity
  chunk : h.settings.chunk = h'.settings.chunk
  cursor : h.cursor = h'.cursor

theorem Heap.Alike.size {h h' : Heap} (hsame : h.Alike h') : h.size = h'.size :=
  congrArg Region.size hsame.region

theorem Heap.Alike.available {h h' : Heap} (hsame : h.Alike h') :
    h.arena.available = h'.arena.available := congrArg₂ (· - ·) hsame.capacity hsame.size

def Session.regrown (n : Session) (r spare : Region) : Session := ⟨n.heap.regrown r spare, n.journal⟩

def Session.moved (n : Session) (bp : Nat) : Session := ⟨{ n.heap with cursor := bp }, n.journal⟩

def Session.recorded (n : Session) (e : Event) : Session := ⟨n.heap, n.journal.push e⟩

structure Indifferent (R : Session → Session → Prop) : Prop where
  alike : ∀ {n n'}, R n n' → n.heap.Alike n'.heap
  regrown : ∀ {n n'} r spare, R n n' → R (n.regrown r spare) (n'.regrown r spare)
  moved : ∀ {n n'} bp, R n n' → R (n.moved bp) (n'.moved bp)
  recorded : ∀ {n n'} e, R n n' → R (n.recorded e) (n'.recorded e)

/-- A step that does the same on heaps that are alike. -/
def Oblivious {α : Type} (act : HeapM α) : Prop :=
  ∀ R, Indifferent R → ∀ {n n'}, R n n' → Matches R (act n) (act n')

namespace HeapM

variable {α β : Type}

def withLive (live : Option LiveBlocks) :
    EStateM.Result Failure Session α → EStateM.Result Failure Session α
  | .ok a n => .ok a (n.tracking live)
  | .error e n => .error e (n.tracking live)

/-- A step that neither looks at the live set nor changes it. -/
def Blind (act : HeapM α) : Prop :=
  ∀ live n, act (n.tracking live) = withLive live (act n)

theorem Blind.restore {act : HeapM α} (hact : Blind act) {h h' : Heap} {j j' : Array Event} {a : α}
    (hrun : act ⟨h.tracking none, j⟩ = .ok a ⟨h', j'⟩) :
    act ⟨h, j⟩ = .ok a ⟨h'.tracking h.live, j'⟩ := by
  have hlive := hact h.live ⟨h.tracking none, j⟩
  rw [hrun] at hlive
  exact hlive

theorem indifferent_tracking (live : Option LiveBlocks) :
    Indifferent fun n n' => n' = n.tracking live where
  alike := by
    rintro n _ rfl
    exact ⟨rfl, rfl, rfl, rfl, rfl⟩
  regrown := by
    rintro n _ r spare rfl
    rfl
  moved := by
    rintro n _ bp rfl
    rfl
  recorded := by
    rintro n _ e rfl
    rfl

end HeapM

theorem Oblivious.blind {α : Type} {act : HeapM α} (hact : Oblivious act) : Blind act := by
  intro live n
  have hboth := hact _ (indifferent_tracking live) (rfl : n.tracking live = n.tracking live)
  cases hrun : act n with
  | ok a m =>
    obtain ⟨m', hrun', rfl⟩ := hboth.ok hrun
    exact hrun'
  | error e m =>
    obtain ⟨m', hrun', rfl⟩ := hboth.error hrun
    exact hrun'

section

variable {α β : Type}

theorem oblivious_pure (a : α) : Oblivious (pure a : HeapM α) := fun _ _ _ _ hr => ⟨rfl, hr⟩

theorem oblivious_throw (e : Failure) : Oblivious (throw e : HeapM α) := fun _ _ _ _ hr => ⟨rfl, hr⟩

theorem Oblivious.bind {act : HeapM α} {next : α → HeapM β} (hact : Oblivious act)
    (hnext : ∀ a, Oblivious (next a)) : Oblivious (act >>= next) := by
  intro R hR n n' hr
  exact (hact R hR hr).bind fun a m m' _ _ hm => hnext a R hR hm

theorem Oblivious.ite {p : Prop} [Decidable p] {act act' : HeapM α} (h : Oblivious act)
    (h' : Oblivious act') : Oblivious (if p then act else act') := by
  split
  · exact h
  · exact h'

theorem Oblivious.map {act : HeapM α} (hact : Oblivious act) (f : α → β) : Oblivious (f <$> act) := by
  rw [map_eq_pure_bind]
  exact hact.bind fun _ => oblivious_pure _

theorem Oblivious.attempt {act : HeapM α} (hact : Oblivious act) : Oblivious (attempt act) := by
  intro R hR n n' hr
  have hboth := hact R hR hr
  cases hrun : act n with
  | ok a m =>
    obtain ⟨m', hrun', hm⟩ := hboth.ok hrun
    simp only [HeapM.attempt, hrun, hrun']
    exact ⟨rfl, hm⟩
  | error e m =>
    obtain ⟨m', hrun', hm⟩ := hboth.error hrun
    simp only [HeapM.attempt, hrun, hrun']
    cases e with
    | refused why => exact ⟨rfl, hm⟩
    | trapped t => exact ⟨rfl, hm⟩

theorem oblivious_lift (x : Except Trap α) : Oblivious (liftM x : HeapM α) := by
  intro R hR n n' hr
  cases x with
  | ok a => exact ⟨rfl, hr⟩
  | error t => exact ⟨rfl, hr⟩

theorem oblivious_read {f : Heap → α} (hf : ∀ {h h'}, Heap.Alike h h' → f h = f h') :
    Oblivious (HeapM.read f) := fun _ hR _ _ hr => ⟨hf (hR.alike hr), hr⟩

theorem oblivious_query {f : Heap → Except Trap α} (hf : ∀ {h h'}, Heap.Alike h h' → f h = f h') :
    Oblivious (query f) := by
  intro R hR n n' hr
  simp only [query, hf (hR.alike hr)]
  cases f n'.heap with
  | ok a => exact ⟨rfl, hr⟩
  | error t => exact ⟨rfl, hr⟩

theorem oblivious_look (f : Region → Except Trap α) : Oblivious (look f) :=
  oblivious_query fun h => congrArg f h.region

theorem edit_eq (act : RegionM α) (n : Session) : edit act n =
    match act n.heap.region with
    | .ok a r => .ok a (n.regrown r n.heap.arena.spare)
    | .error t r => .error (.trapped t) (n.regrown r n.heap.arena.spare) := by
  obtain ⟨⟨⟨base, granted, spare, capacity⟩, settings, cursor, live⟩, j⟩ := n
  simp only [edit, Arena.edit, Heap.region]
  cases act granted <;> rfl

theorem oblivious_edit (act : RegionM α) : Oblivious (edit act) := by
  intro R hR n n' hr
  have hsame := hR.alike hr
  rw [edit_eq, edit_eq, hsame.region, hsame.spare]
  cases act n'.heap.region with
  | ok a r => exact ⟨rfl, hR.regrown r _ hr⟩
  | error t r => exact ⟨rfl, hR.regrown r _ hr⟩

theorem oblivious_grow (count : Nat) : Oblivious (grow count) := by
  intro R hR n n' hr
  have hsame := hR.alike hr
  have hroom := hsame.available
  by_cases hfull : n.heap.arena.available < count
  · have hrun := Heap.grow_refused hfull n.journal
    have hrun' := Heap.grow_refused (hroom ▸ hfull) n'.journal
    rw [hrun, hrun', hsame.capacity, hsame.size]
    exact ⟨rfl, hr⟩
  · have htopped : n.heap.topped count = n'.heap.topped count := by
      simp only [Heap.topped, hsame.region, hsame.spare]
    have hrun := Heap.grow_granted (Nat.le_of_not_lt hfull) n.journal
    have hrun' := Heap.grow_granted (Nat.le_of_not_lt (hroom ▸ hfull)) n'.journal
    rw [hrun, hrun', hsame.size, htopped]
    exact ⟨rfl, hR.regrown _ _ hr⟩

theorem oblivious_moveCursor (bp : Nat) : Oblivious (moveCursor bp) :=
  fun _ hR _ _ hr => ⟨rfl, hR.moved bp hr⟩

theorem oblivious_record (e : Event) : Oblivious (record e) :=
  fun _ hR _ _ hr => ⟨rfl, hR.recorded e hr⟩

end

theorem advance_oblivious (bp : Nat) : Oblivious (advance bp) :=
  (oblivious_read fun h => h.cursor).bind fun _ =>
    ((oblivious_look _).bind fun _ => oblivious_moveCursor _).ite (oblivious_pure _)

theorem occupy_oblivious (bp want : Nat) : Oblivious (occupy bp want) := by
  refine (oblivious_look _).bind fun tag => (oblivious_lift _).bind fun rest => ?_
  exact ((oblivious_edit _).bind fun _ => advance_oblivious bp).ite
    ((oblivious_edit _).bind fun _ => advance_oblivious bp)

theorem settle_oblivious (start : Nat) : Oblivious (settle start) :=
  (oblivious_look _).bind fun _ => (oblivious_read fun h => h.cursor).bind fun _ =>
    ((oblivious_moveCursor _).bind fun _ => oblivious_pure _).ite (oblivious_pure _)

theorem merge_oblivious (bp : Nat) : Oblivious (merge bp) := by
  refine (oblivious_look _).bind fun before => (oblivious_look _).bind fun after =>
    (oblivious_look _).bind fun own => ?_
  -- the same steps follow, whether the block starts here or further down
  have hrest : ∀ start, Oblivious (do
      unless before.allocated && after.allocated do
        let low ← if before.allocated then pure 0 else Tag.size <$> look (·.tagAt start)
        let high := if after.allocated then 0 else after.size
        edit (writeTags start ⟨low + own.size + high, false⟩)
      settle start) := by
    intro start
    have hwrite : ∀ size, Oblivious (do
        edit (writeTags start ⟨size, false⟩)
        settle start) := fun _ => (oblivious_edit _).bind fun _ => settle_oblivious start
    exact (settle_oblivious start).ite (((oblivious_pure _).bind fun _ => hwrite _).ite
      (((oblivious_look _).map _).bind fun _ => hwrite _))
  exact ((oblivious_pure _).bind hrest).ite ((oblivious_lift _).bind hrest)

theorem extend_oblivious (bytes : Nat) : Oblivious (extend bytes) :=
  (oblivious_lift _).bind fun _ => (oblivious_grow _).bind fun _ => (oblivious_record _).bind fun _ =>
    (oblivious_edit _).bind fun _ => merge_oblivious _

theorem Heap.Alike.search {h h' : Heap} (hsame : h.Alike h') (want : Nat) :
    h.search want = h'.search want := by
  rw [Heap.search, Heap.search, hsame.region, hsame.cursor]

theorem obtainFree_oblivious (size want : Nat) : Oblivious (obtainFree size want) := by
  refine (oblivious_query fun h => h.search want).bind fun found => ?_
  cases found with
  | some bp => exact (oblivious_moveCursor bp).bind fun _ => oblivious_pure _
  | none =>
    refine (oblivious_read fun h => h.chunk).bind fun chunk =>
      (extend_oblivious _).attempt.bind fun grown => ?_
    cases grown with
    | ok bp => exact oblivious_pure _
    | error why => exact (oblivious_record _).bind fun _ => oblivious_pure _

theorem allot_oblivious (size : Nat) : Oblivious (allot size) := by
  refine (oblivious_pure _).ite ?_
  cases blockSizeFor size with
  | none => exact (oblivious_record _).bind fun _ => oblivious_pure _
  | some want =>
    refine (obtainFree_oblivious size want).bind fun found => ?_
    cases found with
    | none => exact oblivious_pure _
    | some bp => exact (occupy_oblivious bp want).bind fun _ => oblivious_pure _

theorem giveBack_oblivious (bp : Nat) : Oblivious (giveBack bp) :=
  (oblivious_look _).bind fun _ => (oblivious_edit _).bind fun _ => (oblivious_record _).bind fun _ =>
    (merge_oblivious bp).map _

theorem Heap.Alike.payloadSize {h h' : Heap} (hsame : h.Alike h') (bp : Nat) :
    h.payloadSize bp = h'.payloadSize bp := by
  rw [Heap.payloadSize, Heap.payloadSize, hsame.region]

theorem Heap.Alike.payload {h h' : Heap} (hsame : h.Alike h') (bp : Nat) :
    h.payload bp = h'.payload bp := by
  rw [Heap.payload, Heap.payload, hsame.region, hsame.payloadSize]

theorem writePayload_oblivious (bp start : Nat) (data : ByteArray) :
    Oblivious (writePayload bp start data) :=
  (oblivious_query fun h => h.payload bp).bind fun _ => (oblivious_edit _).ite (oblivious_throw _)

end BoundaryTag
