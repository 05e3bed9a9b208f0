import BoundaryTag.Trap

/-!
# Live blocks

The blocks handed out and not yet released, kept in ascending order, so that two sets with the same
members are equal. Naming a block that is not a member is a trap raised before anything is changed.
-/

set_option autoImplicit false

namespace BoundaryTag

def insertAscending (bp : Nat) : List Nat → List Nat
  | [] => [bp]
  | x :: xs =>
    if bp < x then bp :: x :: xs
    else if bp = x then x :: xs
    else x :: insertAscending bp xs

theorem mem_insertAscending {bp x : Nat} {xs : List Nat} :
    x ∈ insertAscending bp xs ↔ x = bp ∨ x ∈ xs := by
  induction xs with
  | nil => simp [insertAscending]
  | cons y ys ih =>
    simp only [insertAscending]
    split
    · simp
    · split
      · next h => simp [h]
      · simp only [List.mem_cons, ih]
        grind

theorem pairwise_insertAscending {bp : Nat} {xs : List Nat} (h : xs.Pairwise (· < ·)) :
    (insertAscending bp xs).Pairwise (· < ·) := by
  induction xs with
  | nil => simp [insertAscending]
  | cons y ys ih =>
    obtain ⟨hy, hys⟩ := List.pairwise_cons.1 h
    simp only [insertAscending]
    split
    · next hlt =>
      refine List.pairwise_cons.2 ⟨fun z hz => ?_, h⟩
      rcases List.mem_cons.1 hz with rfl | hz
      · exact hlt
      · exact Nat.lt_trans hlt (hy z hz)
    · split
      · exact h
      · refine List.pairwise_cons.2 ⟨fun z hz => ?_, ih hys⟩
        rcases mem_insertAscending.1 hz with rfl | hz
        · omega
        · exact hy z hz

structure LiveBlocks where
  positions : List Nat
  ascending : positions.Pairwise (· < ·)
deriving DecidableEq

namespace LiveBlocks

def empty : LiveBlocks := ⟨[], List.Pairwise.nil⟩

def size (live : LiveBlocks) : Nat := live.positions.length

def contains (live : LiveBlocks) (bp : Nat) : Bool := live.positions.contains bp

instance : Membership Nat LiveBlocks := ⟨fun live bp => bp ∈ live.positions⟩

def insert (live : LiveBlocks) (bp : Nat) : Except Trap LiveBlocks :=
  if live.contains bp then .error (.handedOutTwice bp)
  else .ok ⟨insertAscending bp live.positions, pairwise_insertAscending live.ascending⟩

def require (live : LiveBlocks) (bp : Nat) (action : String) : Except Trap Unit :=
  if live.contains bp then .ok () else .error (.notLive action bp)

def erase (live : LiveBlocks) (bp : Nat) (action : String) : Except Trap LiveBlocks := do
  live.require bp action
  return ⟨live.positions.erase bp, live.ascending.sublist List.erase_sublist⟩

theorem mem_iff_contains {live : LiveBlocks} {bp : Nat} :
    live.contains bp = true ↔ bp ∈ live := by
  simp only [contains, List.contains_iff_mem]
  exact Iff.rfl

theorem insert_of_not_mem {live : LiveBlocks} {bp : Nat} (h : bp ∉ live) :
    ∃ live', live.insert bp = .ok live' :=
  ⟨_, if_neg (mt mem_iff_contains.1 h)⟩

theorem require_of_mem {live : LiveBlocks} {bp : Nat} (action : String) (h : bp ∈ live) :
    live.require bp action = .ok () :=
  if_pos (mem_iff_contains.2 h)

theorem require_of_not_mem {live : LiveBlocks} {bp : Nat} (action : String) (h : bp ∉ live) :
    live.require bp action = .error (.notLive action bp) :=
  if_neg (mt mem_iff_contains.1 h)

theorem erase_of_mem {live : LiveBlocks} {bp : Nat} (action : String) (h : bp ∈ live) :
    ∃ live', live.erase bp action = .ok live' := by
  rw [erase, require_of_mem action h]
  exact ⟨_, rfl⟩

theorem erase_of_not_mem {live : LiveBlocks} {bp : Nat} (action : String) (h : bp ∉ live) :
    live.erase bp action = .error (.notLive action bp) := by
  rw [erase, require_of_not_mem action h]
  rfl

theorem mem_of_insert {live live' : LiveBlocks} {bp x : Nat} (h : live.insert bp = .ok live') :
    x ∈ live' ↔ x = bp ∨ x ∈ live := by
  simp only [insert] at h
  split at h
  · cases h
  · obtain rfl := Except.ok.inj h
    exact mem_insertAscending

theorem mem_of_erase {live live' : LiveBlocks} {bp x : Nat} {action : String}
    (h : live.erase bp action = .ok live') : x ∈ live' ↔ x ≠ bp ∧ x ∈ live := by
  simp only [erase, require] at h
  split at h
  · obtain rfl := Except.ok.inj h
    exact List.Nodup.mem_erase_iff (live.ascending.imp Nat.ne_of_lt)
  · cases h

theorem ext_mem {a b : LiveBlocks} (h : ∀ x, x ∈ a ↔ x ∈ b) : a = b := by
  obtain ⟨xs, hx⟩ := a
  obtain ⟨ys, hy⟩ := b
  have : xs = ys := List.Perm.eq_of_pairwise (fun a b _ _ h1 h2 => absurd h1 (by omega)) hx hy
    ((List.perm_ext_iff_of_nodup (hx.imp Nat.ne_of_lt) (hy.imp Nat.ne_of_lt)).2 h)
  subst this
  rfl

def debugText (live : LiveBlocks) : String :=
  let members := ", ".intercalate (live.positions.map fun bp => s!"BlockPtr({bp})")
  s!"LiveSet \x7b live: \x7b{members}\x7d \x7d"

end LiveBlocks

end BoundaryTag
