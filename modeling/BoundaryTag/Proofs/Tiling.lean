import BoundaryTag.Heap.Search
import Mathlib.Algebra.GroupWithZero.Nat
import Mathlib.Data.List.Chain

/-!
# Tilings

Lists of blocks apart from the bytes that describe them. `Abut` says that the blocks follow one
another from a start to a stop, `Apart` that no two neighbours are free. The list operations here are
what carving, releasing and merging do to a heap: `recut` replaces one block by others, `joinFree`
joins every run of free neighbours, and `home` moves a position inside a block to the block's start.
-/

set_option autoImplicit false

namespace BoundaryTag

def Block.stop (b : Block) : Nat := b.bp + b.size

/-- The blocks follow one another from `start` to `stop` without gap or overlap. -/
def Abut : Nat → List Block → Nat → Prop
  | start, [], stop => start = stop
  | start, b :: bs, stop => b.bp = start ∧ Abut b.stop bs stop

def Sized (bs : List Block) : Prop := ∀ b ∈ bs, 8 ≤ b.size ∧ b.size % 8 = 0

theorem sized_append {xs ys : List Block} : Sized (xs ++ ys) ↔ Sized xs ∧ Sized ys :=
  List.forall_mem_append

theorem sized_middle {xs ys : List Block} {b : Block} :
    Sized (xs ++ b :: ys) ↔ Sized xs ∧ (8 ≤ b.size ∧ b.size % 8 = 0) ∧ Sized ys := by
  rw [sized_append]
  exact and_congr_right fun _ => List.forall_mem_cons

/-- No two neighbours are free. -/
def Apart (bs : List Block) : Prop := bs.IsChain fun a b => a.allocated ∨ b.allocated

theorem apart_cons {b : Block} {bs : List Block} :
    Apart (b :: bs) ↔ (∀ c ∈ bs.head?, b.allocated ∨ c.allocated) ∧ Apart bs := List.isChain_cons

theorem apart_around {xs ys : List Block} {b : Block} (h : Apart (xs ++ b :: ys))
    (hfree : b.allocated = false) : Apart xs ∧ (∀ c ∈ xs.getLast?, c.allocated) ∧ Apart ys ∧
      ∀ c ∈ ys.head?, c.allocated := by
  obtain ⟨hxs, hbys, hseam⟩ := List.isChain_append.1 h
  obtain ⟨hnext, hys⟩ := apart_cons.1 hbys
  refine ⟨hxs, fun c hc => ?_, hys, fun c hc => ?_⟩
  · simpa [hfree] using hseam c hc b (by simp)
  · simpa [hfree] using hnext c hc

theorem abut_append {xs ys : List Block} {start stop : Nat} :
    Abut start (xs ++ ys) stop ↔ ∃ mid, Abut start xs mid ∧ Abut mid ys stop := by
  induction xs generalizing start with
  | nil => simp [Abut]
  | cons x xs ih => simp [Abut, ih, and_assoc]

theorem Abut.le {bs : List Block} {start stop : Nat} (h : Abut start bs stop) : start ≤ stop := by
  induction bs generalizing start with
  | nil => exact Nat.le_of_eq h
  | cons b bs ih =>
    have := ih h.2
    simp only [Block.stop] at this
    have := h.1
    omega

theorem Abut.bounds {bs : List Block} {start stop : Nat} (h : Abut start bs stop) {b : Block}
    (hb : b ∈ bs) : start ≤ b.bp ∧ b.stop ≤ stop := by
  obtain ⟨xs, ys, rfl⟩ := List.append_of_mem hb
  obtain ⟨mid, hx, hy⟩ := abut_append.1 h
  have := hx.le
  have := hy.2.le
  exact ⟨by rw [hy.1]; omega, this⟩

theorem abut_middle {xs ys : List Block} {b : Block} {start stop : Nat} :
    Abut start (xs ++ b :: ys) stop ↔ Abut start xs b.bp ∧ Abut b.stop ys stop := by
  rw [abut_append]
  constructor
  · rintro ⟨mid, hx, hb, hy⟩
    exact ⟨hb ▸ hx, hy⟩
  · rintro ⟨hx, hy⟩
    exact ⟨b.bp, hx, rfl, hy⟩

theorem Abut.pairwise {bs : List Block} {start stop : Nat} (h : Abut start bs stop) :
    bs.Pairwise fun a b => a.stop ≤ b.bp := by
  induction bs generalizing start with
  | nil => exact .nil
  | cons b bs ih => exact .cons (fun c hc => (h.2.bounds hc).1) (ih h.2)

theorem Abut.total {bs : List Block} {start stop : Nat} (h : Abut start bs stop) :
    stop = start + (bs.map Block.size).sum := by
  induction bs generalizing start with
  | nil => simpa [Abut] using h.symm
  | cons b bs ih =>
    rw [ih h.2, List.map_cons, List.sum_cons, ← h.1, Block.stop, Nat.add_assoc]

def freeSum (bs : List Block) : Nat := ((bs.filter (!·.allocated)).map Block.size).sum

theorem freeSum_append (xs ys : List Block) : freeSum (xs ++ ys) = freeSum xs + freeSum ys := by
  simp [freeSum]

theorem freeSum_cons (b : Block) (bs : List Block) :
    freeSum (b :: bs) = (if b.allocated then 0 else b.size) + freeSum bs := by
  cases hb : b.allocated <;> simp [freeSum, hb]

theorem freeSum_of_free {bs : List Block} (h : ∀ b ∈ bs, b.allocated = false) :
    freeSum bs = (bs.map Block.size).sum := by
  rw [freeSum, List.filter_eq_self.2 fun b hb => by simp [h b hb]]

theorem Abut.cover {bs : List Block} {start stop pos : Nat} (h : Abut start bs stop)
    (hlow : start ≤ pos) (hhigh : pos < stop) : ∃ b ∈ bs, b.bp ≤ pos ∧ pos < b.stop := by
  induction bs generalizing start with
  | nil => exact absurd h (by simp only [Abut]; omega)
  | cons b bs ih =>
    by_cases hb : pos < b.stop
    · exact ⟨b, by simp, by rw [h.1]; exact hlow, hb⟩
    · obtain ⟨c, hc, hin⟩ := ih h.2 (by omega)
      exact ⟨c, by simp [hc], hin⟩

theorem Abut.disjoint {bs : List Block} {start stop : Nat} (h : Abut start bs stop) {a b : Block}
    (ha : a ∈ bs) (hb : b ∈ bs) : a = b ∨ a.stop ≤ b.bp ∨ b.stop ≤ a.bp := by
  induction bs generalizing start with
  | nil => cases ha
  | cons c cs ih =>
    rcases List.mem_cons.1 ha with hac | hac <;> rcases List.mem_cons.1 hb with hbc | hbc
    · exact .inl (hac.trans hbc.symm)
    · exact .inr (.inl (hac ▸ (h.2.bounds hbc).1))
    · exact .inr (.inr (hbc ▸ (h.2.bounds hac).1))
    · exact ih h.2 hac hbc

theorem Abut.eq_of_bp {bs : List Block} {start stop : Nat} (h : Abut start bs stop)
    (hs : Sized bs) {a b : Block} (ha : a ∈ bs) (hb : b ∈ bs) (heq : a.bp = b.bp) : a = b := by
  have := (hs a ha).1
  have := (hs b hb).1
  rcases h.disjoint ha hb with rfl | hd | hd
  · rfl
  · simp only [Block.stop] at hd
    omega
  · simp only [Block.stop] at hd
    omega

theorem Abut.ascending {bs : List Block} {start stop : Nat} (h : Abut start bs stop)
    (hs : Sized bs) : (bs.map Block.bp).Pairwise (· < ·) := by
  refine List.pairwise_map.2 (h.pairwise.imp_of_mem fun {a b} ha _ hab => ?_)
  have := (hs a ha).1
  simp only [Block.stop] at hab
  omega

theorem Abut.aligned {bs : List Block} {start stop : Nat} (h : Abut start bs stop)
    (hs : Sized bs) (h8 : start % 8 = 0) : (∀ b ∈ bs, b.bp % 8 = 0) ∧ stop % 8 = 0 := by
  induction bs generalizing start with
  | nil =>
    have hstop : start = stop := h
    exact ⟨fun b hb => (List.not_mem_nil hb).elim, hstop ▸ h8⟩
  | cons b bs ih =>
    have hb := (hs b (by simp)).2
    have hbp := h.1
    obtain ⟨hrest, hstop⟩ := ih h.2 (fun c hc => hs c (by simp [hc]))
      (by simp only [Block.stop]; omega)
    refine ⟨fun c hc => ?_, hstop⟩
    rcases List.mem_cons.1 hc with rfl | hc
    · rw [hbp]; exact h8
    · exact hrest c hc

def Boundary (bs : List Block) (stop pos : Nat) : Prop := pos ∈ bs.map Block.bp ∨ pos = stop

theorem Abut.boundary {bs : List Block} {start stop : Nat} (h : Abut start bs stop) :
    Boundary bs stop start := by
  cases bs with
  | nil => exact .inr h
  | cons b bs => exact .inl (by simp [h.1])

theorem Boundary.bounds {bs : List Block} {start stop pos : Nat} (hp : Boundary bs stop pos)
    (h : Abut start bs stop) : start ≤ pos ∧ pos ≤ stop := by
  rcases hp with hp | rfl
  · obtain ⟨b, hb, rfl⟩ := List.mem_map.1 hp
    obtain ⟨hlow, hstop⟩ := h.bounds hb
    simp only [Block.stop] at hstop
    omega
  · exact ⟨h.le, Nat.le_refl _⟩

theorem Boundary.append_left {xs ys : List Block} {stop pos : Nat} (h : Boundary ys stop pos) :
    Boundary (xs ++ ys) stop pos := by
  rcases h with h | h
  · exact .inl (by simpa using .inr (List.mem_map.1 h))
  · exact .inr h

theorem Boundary.not_inside {bs : List Block} {start stop pos : Nat} (h : Abut start bs stop)
    (hp : Boundary bs stop pos) {b : Block} (hb : b ∈ bs) : ¬ (b.bp < pos ∧ pos < b.stop) := by
  have hstop := (h.bounds hb).2
  rcases hp with hp | rfl
  · obtain ⟨a, ha, rfl⟩ := List.mem_map.1 hp
    rcases h.disjoint ha hb with rfl | hd | hd
    · omega
    · simp only [Block.stop] at *
      omega
    · omega
  · omega

theorem Boundary.split {bs : List Block} {start stop pos : Nat} (hp : Boundary bs stop pos)
    (h : Abut start bs stop) : ∃ xs ys, bs = xs ++ ys ∧ Abut start xs pos ∧ Abut pos ys stop := by
  rcases hp with hp | rfl
  · obtain ⟨b, hb, rfl⟩ := List.mem_map.1 hp
    obtain ⟨xs, ys, rfl⟩ := List.append_of_mem hb
    obtain ⟨hxs, hys⟩ := abut_middle.1 h
    exact ⟨xs, b :: ys, rfl, hxs, rfl, hys⟩
  · exact ⟨bs, [], by simp, h, rfl⟩

theorem dropWhile_abut {xs ys : List Block} {start stop pos : Nat} (hs : Sized xs)
    (hxs : Abut start xs pos) (hys : Abut pos ys stop) :
    (xs ++ ys).dropWhile (·.bp < pos) = ys := by
  rw [List.dropWhile_append_of_pos]
  · cases ys with
    | nil => rfl
    | cons b ys => exact List.dropWhile_cons_of_neg (by simp [hys.1])
  · intro b hb
    have := (hs b hb).1
    have := (hxs.bounds hb).2
    simp only [Block.stop] at this
    simp only [decide_eq_true_eq]
    omega

/-- The list with the block at `bp` replaced. -/
def recut (bp : Nat) (f : Block → List Block) (bs : List Block) : List Block :=
  bs.flatMap fun b => if b.bp = bp then f b else [b]

theorem recut_of_ne {bp : Nat} {f : Block → List Block} {bs : List Block}
    (h : ∀ b ∈ bs, b.bp ≠ bp) : recut bp f bs = bs := by
  induction bs with
  | nil => rfl
  | cons b bs ih =>
    rw [recut, List.flatMap_cons, if_neg (h b (by simp))]
    exact congrArg (b :: ·) (ih fun c hc => h c (by simp [hc]))

theorem mem_recut {bp : Nat} {f : Block → List Block} {bs : List Block} {c : Block} :
    c ∈ recut bp f bs ↔ (∃ b ∈ bs, b.bp = bp ∧ c ∈ f b) ∨ c ∈ bs ∧ c.bp ≠ bp := by
  rw [recut, List.mem_flatMap]
  constructor
  · rintro ⟨b, hb, hc⟩
    split at hc
    · next heq => exact .inl ⟨b, hb, heq, hc⟩
    · next hne => exact .inr (List.mem_singleton.1 hc ▸ ⟨hb, hne⟩)
  · rintro (⟨b, hb, heq, hc⟩ | ⟨hc, hne⟩)
    · exact ⟨b, hb, by rwa [if_pos heq]⟩
    · exact ⟨c, hc, by rw [if_neg hne]; exact List.mem_singleton.2 rfl⟩

theorem Abut.ne_middle {xs ys : List Block} {b : Block} {start stop : Nat}
    (h : Abut start (xs ++ b :: ys) stop) (hs : Sized (xs ++ b :: ys)) :
    (∀ c ∈ xs, c.bp ≠ b.bp) ∧ ∀ c ∈ ys, c.bp ≠ b.bp := by
  obtain ⟨-, hb, hxs⟩ := List.pairwise_append.1 (List.pairwise_map.1 (h.ascending hs))
  exact ⟨fun c hc => Nat.ne_of_lt (hxs c hc b List.mem_cons_self),
    fun c hc => Nat.ne_of_gt ((List.pairwise_cons.1 hb).1 c hc)⟩

theorem recut_middle {xs ys : List Block} {b : Block} {start stop : Nat} {f : Block → List Block}
    (h : Abut start (xs ++ b :: ys) stop) (hs : Sized (xs ++ b :: ys)) :
    recut b.bp f (xs ++ b :: ys) = xs ++ f b ++ ys := by
  obtain ⟨hx, hy⟩ := h.ne_middle hs
  have hsplit : recut b.bp f (xs ++ b :: ys) = recut b.bp f xs ++ (f b ++ recut b.bp f ys) := by
    simp [recut]
  rw [hsplit, recut_of_ne hx, recut_of_ne hy, List.append_assoc]

/-- Handing out the first `want` bytes of a free block leaves the rest as a free block, where it can
stand as one. -/
def Block.carved (want : Nat) (b : Block) : List Block :=
  if minBlock ≤ b.size - want then
    [⟨b.bp, want, true⟩, ⟨b.bp + want, b.size - want, false⟩]
  else [⟨b.bp, b.size, true⟩]

def Block.share (want : Nat) (b : Block) : Nat :=
  if minBlock ≤ b.size - want then want else b.size

def Block.freed (b : Block) : Block := ⟨b.bp, b.size, false⟩

theorem abut_carved {want : Nat} {b : Block} (h : want ≤ b.size) :
    Abut b.bp (b.carved want) b.stop := by
  simp only [Block.carved, Block.stop]
  split
  · simp only [Abut, Block.stop, true_and]
    omega
  · simp [Abut, Block.stop]

theorem forall_carved {P : Nat → Prop} {want : Nat} {b : Block} (hb : P b.size) (hw : P want)
    (hrest : 16 ≤ b.size - want → P (b.size - want)) : ∀ c ∈ b.carved want, P c.size := by
  intro c hc
  simp only [Block.carved, minBlock] at hc
  split at hc
  · next hcut =>
    simp only [List.mem_cons, List.not_mem_nil, or_false] at hc
    rcases hc with rfl | rfl
    · exact hw
    · exact hrest hcut
  · rw [List.mem_singleton.1 hc]
    exact hb

theorem sized_carved {want : Nat} {b : Block} (hb : 8 ≤ b.size ∧ b.size % 8 = 0)
    (hw : 16 ≤ want ∧ want % 8 = 0) : Sized (b.carved want) :=
  forall_carved (P := fun n => 8 ≤ n ∧ n % 8 = 0) hb ⟨by omega, hw.2⟩ fun hrest => by omega

theorem share_mem_carved (want : Nat) (b : Block) : ⟨b.bp, b.share want, true⟩ ∈ b.carved want := by
  simp only [Block.carved, Block.share]
  split <;> simp

theorem carved_eq (want : Nat) (b : Block) : ∃ rest,
    b.carved want = ⟨b.bp, b.share want, true⟩ :: rest ∧ ∀ c ∈ rest, c.allocated = false := by
  simp only [Block.carved, Block.share]
  split
  · exact ⟨_, rfl, by simp⟩
  · exact ⟨[], rfl, by simp⟩

theorem filter_carved (want : Nat) (b : Block) :
    (b.carved want).filter (·.allocated) = [⟨b.bp, b.share want, true⟩] := by
  simp only [Block.carved, Block.share]
  split <;> simp

def Block.attach (b : Block) : List Block → List Block
  | [] => [b]
  | c :: cs =>
    if b.allocated || c.allocated then b :: c :: cs else ⟨b.bp, b.size + c.size, false⟩ :: cs

/-- The list with every run of free neighbours joined into one block. -/
def joinFree (bs : List Block) : List Block := bs.foldr Block.attach []

theorem abut_attach {b : Block} {cs : List Block} {stop : Nat} (h : Abut b.stop cs stop) :
    Abut b.bp (b.attach cs) stop := by
  cases cs with
  | nil => exact ⟨rfl, h⟩
  | cons c cs =>
    simp only [Block.attach]
    split
    · exact ⟨rfl, h⟩
    · have hc := h.1
      have htail := h.2
      refine ⟨rfl, ?_⟩
      simp only [Block.stop] at *
      rwa [← Nat.add_assoc, ← hc]

theorem abut_joinFree {bs : List Block} {start stop : Nat} (h : Abut start bs stop) :
    Abut start (joinFree bs) stop := by
  induction bs generalizing start with
  | nil => exact h
  | cons b bs ih => exact h.1 ▸ abut_attach (ih h.2)

theorem forall_joinFree {P : Nat → Prop} (hadd : ∀ m n, P m → P n → P (m + n)) {bs : List Block}
    (h : ∀ b ∈ bs, P b.size) : ∀ b ∈ joinFree bs, P b.size := by
  induction bs with
  | nil => exact h
  | cons b bs ih =>
    have hb := h b (by simp)
    have hrest := ih fun c hc => h c (by simp [hc])
    show ∀ d ∈ b.attach (joinFree bs), P d.size
    cases hj : joinFree bs with
    | nil => simpa [Block.attach] using hb
    | cons c cs =>
      rw [hj] at hrest
      simp only [Block.attach]
      split
      · intro d hd
        rcases List.mem_cons.1 hd with rfl | hd
        · exact hb
        · exact hrest d hd
      · intro d hd
        rcases List.mem_cons.1 hd with rfl | hd
        · exact hadd _ _ hb (hrest c (by simp))
        · exact hrest d (by simp [hd])

theorem sized_joinFree {bs : List Block} (h : Sized bs) : Sized (joinFree bs) :=
  forall_joinFree (P := fun n => 8 ≤ n ∧ n % 8 = 0) (fun m n hm hn => by omega) h

theorem apart_attach {b : Block} {cs : List Block} (h : Apart cs) : Apart (b.attach cs) := by
  cases cs with
  | nil => exact List.isChain_singleton b
  | cons c cs =>
    simp only [Block.attach]
    split
    · next hbc => exact List.isChain_cons_cons.2 ⟨by simpa using hbc, h⟩
    · next hbc =>
      have hc : c.allocated = false := by simp_all
      refine List.isChain_cons.2 ⟨fun d hd => ?_, (List.isChain_cons.1 h).2⟩
      have := (List.isChain_cons.1 h).1 d hd
      simpa [hc] using this

theorem apart_joinFree (bs : List Block) : Apart (joinFree bs) := by
  induction bs with
  | nil => exact List.isChain_nil
  | cons b bs ih => exact apart_attach ih

theorem filter_joinFree (bs : List Block) :
    (joinFree bs).filter (·.allocated) = bs.filter (·.allocated) := by
  induction bs with
  | nil => rfl
  | cons b bs ih =>
    rw [List.filter_cons, ← ih]
    show List.filter _ (b.attach (joinFree bs)) = _
    cases joinFree bs with
    | nil => simp [Block.attach, List.filter_cons]
    | cons c cs => by_cases hb : b.allocated <;> by_cases hc : c.allocated <;> simp [Block.attach, hb, hc]

theorem joinFree_of_apart {bs : List Block} (h : Apart bs) : joinFree bs = bs := by
  induction bs with
  | nil => rfl
  | cons b bs ih =>
    show b.attach (joinFree bs) = _
    rw [ih (List.isChain_cons.1 h).2]
    cases bs with
    | nil => rfl
    | cons c cs =>
      have := (List.isChain_cons_cons.1 h).1
      simp [Block.attach, this]

theorem joinFree_append {xs ys rest : List Block} {b : Block} (hj : joinFree ys = b :: rest)
    (h : Apart (xs ++ [b])) : joinFree (xs ++ ys) = xs ++ b :: rest := by
  -- Nothing is joined in front of a block whose left neighbour is allocated.
  induction xs with
  | nil => exact hj
  | cons x xs ih =>
    show x.attach (joinFree (xs ++ ys)) = _
    rw [ih (List.isChain_cons.1 h).2]
    cases xs with
    | nil =>
      have := (List.isChain_cons_cons.1 h).1
      simp [Block.attach, this]
    | cons x' xs =>
      have := (List.isChain_cons_cons.1 h).1
      simp [Block.attach, this]

theorem joinFree_run {mid ys : List Block} {start stop : Nat} (h : Abut start mid stop)
    (hne : mid ≠ []) (hfree : ∀ b ∈ mid, b.allocated = false) (hys : Apart ys)
    (hhead : ∀ c ∈ ys.head?, c.allocated) :
    joinFree (mid ++ ys) = ⟨start, stop - start, false⟩ :: ys := by
  induction mid generalizing start with
  | nil => exact absurd rfl hne
  | cons b mid ih =>
    have hb := hfree b (by simp)
    have hbp := h.1
    have hstop := h.2.le
    show b.attach (joinFree (mid ++ ys)) = _
    cases mid with
    | nil =>
      have hb' : b = ⟨start, stop - start, false⟩ := by
        have hs := h.2
        simp only [Abut, Block.stop] at hs
        obtain ⟨bp, size, allocated⟩ := b
        simp only at *
        subst hbp hb
        simp only [Block.mk.injEq, true_and, and_true]
        omega
      rw [List.nil_append, joinFree_of_apart hys, ← hb']
      cases ys with
      | nil => rfl
      | cons c cs => simp [Block.attach, hhead c (by simp)]
    | cons c mid =>
      rw [ih h.2 (by simp) fun d hd => hfree d (by simp [hd])]
      simp only [Block.attach, hb, Bool.or_self, Bool.false_eq_true, if_false, List.cons.injEq,
        and_true, Block.mk.injEq]
      simp only [Block.stop] at *
      omega

theorem joinFree_middle {xs mid ys : List Block} {start stop : Nat} (h : Abut start mid stop)
    (hne : mid ≠ []) (hfree : ∀ b ∈ mid, b.allocated = false) (hxs : Apart xs)
    (hlast : ∀ c ∈ xs.getLast?, c.allocated) (hys : Apart ys)
    (hhead : ∀ c ∈ ys.head?, c.allocated) :
    joinFree (xs ++ mid ++ ys) = xs ++ ⟨start, stop - start, false⟩ :: ys := by
  rw [List.append_assoc]
  refine joinFree_append (joinFree_run h hne hfree hys hhead) ?_
  refine List.isChain_append.2 ⟨hxs, List.isChain_singleton _, fun c hc d _ => ?_⟩
  exact .inl (hlast c hc)

def lastFree (bs : List Block) : List Block := bs.getLast?.toList.filter (!·.allocated)

def firstFree (bs : List Block) : List Block := bs.head?.toList.filter (!·.allocated)

theorem lastFree_concat (xs : List Block) (b : Block) :
    lastFree (xs ++ [b]) = if b.allocated then [] else [b] := by
  cases hb : b.allocated <;> simp [lastFree, hb]

theorem firstFree_cons (b : Block) (ys : List Block) :
    firstFree (b :: ys) = if b.allocated then [] else [b] := by
  cases hb : b.allocated <;> simp [firstFree, hb]

theorem free_of_mem_lastFree {bs : List Block} {b : Block} (h : b ∈ lastFree bs) :
    b.allocated = false := by
  simpa using (List.mem_filter.1 h).2

theorem free_of_mem_firstFree {bs : List Block} {b : Block} (h : b ∈ firstFree bs) :
    b.allocated = false := by
  simpa using (List.mem_filter.1 h).2

theorem free_around {xs ys : List Block} {b : Block} (h : b.allocated = false) :
    ∀ c ∈ lastFree xs ++ b :: firstFree ys, c.allocated = false := by
  intro c hc
  rcases List.mem_append.1 hc with hc | hc
  · exact free_of_mem_lastFree hc
  · rcases List.mem_cons.1 hc with rfl | hc
    · exact h
    · exact free_of_mem_firstFree hc

theorem regroup_around {xs ys zs ws low high : List Block} {b : Block} (hxs : xs = zs ++ low)
    (hys : ys = high ++ ws) : xs ++ b :: ys = zs ++ ((low ++ b :: high) ++ ws) := by
  simp [hxs, hys]

theorem Apart.split_last {xs : List Block} (h : Apart xs) :
    ∃ zs, xs = zs ++ lastFree xs ∧ Apart zs ∧ ∀ c ∈ zs.getLast?, c.allocated := by
  rcases List.eq_nil_or_concat xs with rfl | ⟨zs, b, hconcat⟩
  · exact ⟨[], rfl, h, by simp⟩
  · rw [List.concat_eq_append] at hconcat
    subst hconcat
    rw [lastFree_concat]
    cases hb : b.allocated with
    | true => exact ⟨zs ++ [b], (List.append_nil _).symm, h, by simp [hb]⟩
    | false =>
      obtain ⟨hzs, hlast, -⟩ := apart_around h hb
      exact ⟨zs, rfl, hzs, hlast⟩

theorem Apart.split_first {ys : List Block} (h : Apart ys) :
    ∃ ws, ys = firstFree ys ++ ws ∧ Apart ws ∧ ∀ c ∈ ws.head?, c.allocated := by
  cases ys with
  | nil => exact ⟨[], rfl, h, by simp⟩
  | cons b ys =>
    rw [firstFree_cons]
    cases hb : b.allocated with
    | true => exact ⟨b :: ys, rfl, h, by simp [hb]⟩
    | false =>
      obtain ⟨-, -, hys, hhead⟩ := apart_around (show Apart ([] ++ b :: ys) from h) hb
      exact ⟨ys, rfl, hys, hhead⟩

theorem joinFree_around {xs ys : List Block} {b : Block} {start stop : Nat}
    (h : Abut start (xs ++ b :: ys) stop) (hfree : b.allocated = false) (hxs : Apart xs)
    (hys : Apart ys) : ∃ zs ws f, xs = zs ++ lastFree xs ∧ ys = firstFree ys ++ ws ∧
      f.allocated = false ∧ Abut f.bp (lastFree xs ++ b :: firstFree ys) f.stop ∧
        joinFree (xs ++ b :: ys) = zs ++ f :: ws := by
  obtain ⟨zs, hzs, hzsapart, hlast⟩ := hxs.split_last
  obtain ⟨ws, hws, hwsapart, hhead⟩ := hys.split_first
  have hsplit := regroup_around (b := b) hzs hws
  rw [hsplit] at h
  obtain ⟨low, -, hmidws⟩ := abut_append.1 h
  obtain ⟨high, hmid, -⟩ := abut_append.1 hmidws
  have hhigh : low + (high - low) = high := Nat.add_sub_of_le hmid.le
  refine ⟨zs, ws, ⟨low, high - low, false⟩, hzs, hws, rfl, ?_, ?_⟩
  · rw [Block.stop, hhigh]
    exact hmid
  · rw [hsplit, ← List.append_assoc]
    exact joinFree_middle hmid (by simp) (free_around hfree) hzsapart hlast hwsapart hhead

/-- The start of the block that has the position inside, and the position itself where none has. -/
def home (bs : List Block) (pos : Nat) : Nat :=
  match bs.find? fun b => b.bp < pos && pos < b.stop with
  | some b => b.bp
  | none => pos

theorem home_of_not_inside {bs : List Block} {pos : Nat}
    (h : ∀ b ∈ bs, ¬ (b.bp < pos ∧ pos < b.stop)) : home bs pos = pos := by
  have hnone : bs.find? (fun b => b.bp < pos && pos < b.stop) = none :=
    List.find?_eq_none.2 fun b hb => by simpa using h b hb
  rw [home, hnone]

theorem home_of_inside {bs : List Block} {start stop pos : Nat} (h : Abut start bs stop) {b : Block}
    (hb : b ∈ bs) (hin : b.bp < pos ∧ pos < b.stop) : home bs pos = b.bp := by
  cases hf : bs.find? (fun b => b.bp < pos && pos < b.stop) with
  | none => exact absurd (List.find?_eq_none.1 hf b hb) (by simpa using hin)
  | some c =>
    have hc := List.find?_some hf
    simp only [Bool.and_eq_true, decide_eq_true_eq] at hc
    have hcb : c = b := by
      rcases h.disjoint (List.mem_of_find?_eq_some hf) hb with rfl | hd | hd
      · rfl
      · omega
      · omega
    rw [home, hf, hcb]

theorem home_within {bs : List Block} {start stop pos : Nat} (h : Abut start bs stop) {b : Block}
    (hb : b ∈ bs) (hlow : b.bp ≤ pos) (hhigh : pos < b.stop) : home bs pos = b.bp := by
  by_cases heq : b.bp = pos
  · rw [← heq]
    exact home_of_not_inside fun c hc =>
      Boundary.not_inside h (.inl (List.mem_map_of_mem hb)) hc
  · exact home_of_inside h hb ⟨by omega, hhigh⟩

theorem home_boundary {bs : List Block} {start stop pos : Nat} (h : Abut start bs stop)
    (hlow : start ≤ pos) (hhigh : pos ≤ stop) : Boundary bs stop (home bs pos) := by
  by_cases hin : ∃ b ∈ bs, b.bp < pos ∧ pos < b.stop
  · obtain ⟨b, hb, hpos⟩ := hin
    rw [home_of_inside h hb hpos]
    exact .inl (List.mem_map_of_mem hb)
  · rw [home_of_not_inside fun b hb hpos => hin ⟨b, hb, hpos⟩]
    by_cases htop : pos = stop
    · exact .inr htop
    · obtain ⟨b, hb, hle, hlt⟩ := h.cover hlow (by omega)
      have : b.bp = pos := Nat.le_antisymm hle (Nat.not_lt.1 fun hlt' => hin ⟨b, hb, hlt', hlt⟩)
      exact .inl (this ▸ List.mem_map_of_mem hb)

end BoundaryTag
