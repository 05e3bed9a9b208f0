import BoundaryTag.Proofs.Locating
import BoundaryTag.Proofs.Noninterference

/-!
# Checked and unchecked heaps

A heap that tracks live blocks and one that does not take the same steps, but that the first traps where
its live set forbids a step. A caller who names only blocks that it holds never comes there: both heaps
answer it alike and have the same bytes and the same cursor after every call.
-/

set_option autoImplicit false

namespace BoundaryTag

open HeapM

/-- Sessions on heaps that are alike, of which the second tracks nothing. -/
structure Twins (n n' : Session) : Prop where
  alike : n.heap.Alike n'.heap
  untracked : n'.heap.live = none

theorem twins_indifferent : Indifferent Twins where
  alike ht := ht.alike
  regrown _ _ ht := ⟨⟨rfl, rfl, ht.alike.capacity, ht.alike.chunk, ht.alike.cursor⟩, ht.untracked⟩
  moved _ ht :=
    ⟨⟨ht.alike.region, ht.alike.spare, ht.alike.capacity, ht.alike.chunk, rfl⟩, ht.untracked⟩
  recorded _ ht := ⟨ht.alike, ht.untracked⟩

def Shadows {α : Type} (x y : EStateM.Result Failure Session α) : Prop :=
  (∃ t n, x = .error (.trapped t) n) ∨ Matches Twins x y

section

variable {α β : Type} {n n' : Session}

theorem Shadows.bind {x y : HeapM α} {f g : α → HeapM β} (hxy : Shadows (x n) (y n'))
    (hfg : ∀ a m m', Twins m m' → Shadows (f a m) (g a m')) :
    Shadows ((x >>= f) n) ((y >>= g) n') := by
  rcases hxy with ⟨t, m, hx⟩ | hxy
  · exact .inl ⟨t, m, bind_error hx f⟩
  · cases hx : x n with
    | ok a m =>
      obtain ⟨m', hy, hm⟩ := hxy.ok hx
      rw [bind_ok hx, bind_ok hy]
      exact hfg a m m' hm
    | error e m =>
      obtain ⟨m', hy, hm⟩ := hxy.error hx
      rw [bind_error hx, bind_error hy]
      exact .inr ⟨rfl, hm⟩

theorem Oblivious.shadows {act : HeapM α} (hact : Oblivious act) (ht : Twins n n') :
    Shadows (act n) (act n') := .inr (hact Twins twins_indifferent ht)

theorem track_shadows (f : LiveBlocks → Except Trap LiveBlocks) (ht : Twins n n') :
    Shadows (track f n) (track f n') := by
  obtain ⟨⟨arena, settings, cursor, live⟩, j⟩ := n
  obtain ⟨⟨arena', settings', cursor', live'⟩, j'⟩ := n'
  obtain rfl : live' = none := ht.untracked
  have halike := ht.alike
  cases live with
  | none => exact .inr ⟨rfl, ht⟩
  | some live =>
    cases hf : f live with
    | error t => exact .inl ⟨t, _, track_error rfl hf j⟩
    | ok changed =>
      simp only [track, hf]
      exact .inr ⟨rfl, ⟨halike.region, halike.spare, halike.capacity, halike.chunk, halike.cursor⟩, rfl⟩

theorem requireLive_shadows (bp : Nat) (action : String) (ht : Twins n n') :
    Shadows (requireLive bp action n) (requireLive bp action n') := by
  simp only [requireLive, query, ht.untracked]
  cases n.heap.live with
  | none => exact .inr ⟨rfl, ht⟩
  | some live =>
    dsimp only
    cases live.require bp action with
    | ok _ => exact .inr ⟨rfl, ht⟩
    | error t => exact .inl ⟨t, n, rfl⟩

theorem allocate_shadows (size : Nat) (ht : Twins n n') :
    Shadows (allocate size n) (allocate size n') := by
  rw [allocate_eq]
  apply ((allot_oblivious size).shadows ht).bind
  intro found m m' hm
  cases found with
  | none => exact (oblivious_pure none).shadows hm
  | some found =>
    apply (track_shadows (·.insert found.1) hm).bind
    intro _ m m' hm
    exact ((oblivious_record _).bind fun _ => oblivious_pure _).shadows hm

theorem release_shadows (bp : Nat) (ht : Twins n n') : Shadows (release bp n) (release bp n') := by
  rw [release_eq]
  apply (track_shadows (·.erase bp "free") ht).bind
  intro _ m m' hm
  exact (giveBack_oblivious bp).shadows hm

theorem reallocate_shadows (bp size : Nat) (ht : Twins n n') :
    Shadows (reallocate bp size n) (reallocate bp size n') := by
  rw [reallocate]
  apply (requireLive_shadows bp "realloc" ht).bind
  intro _ m m' hm
  by_cases hzero : size = 0
  · rw [if_pos hzero]
    exact (oblivious_throw _).shadows hm
  · rw [if_neg hzero]
    apply (allocate_shadows size hm).bind
    intro found m m' hm
    cases found with
    | none =>
      exact ((oblivious_read fun h => h.available).bind fun _ => oblivious_throw _).shadows hm
    | some moved =>
      apply ((oblivious_query fun h => h.payloadSize bp).shadows hm).bind
      intro usable m m' hm
      apply ((oblivious_edit _).shadows hm).bind
      intro _ m m' hm
      apply (release_shadows bp hm).bind
      intro _ m m' hm
      exact ((oblivious_record _).bind fun _ => oblivious_pure _).shadows hm

theorem perform_shadows (act : Act) (ht : Twins n n') : Shadows (act.perform n) (act.perform n') := by
  cases act with
  | allocate size => exact allocate_shadows size ht
  | release bp =>
    apply (release_shadows bp ht).bind
    intro _ m m' hm
    exact (oblivious_pure none).shadows hm
  | reallocate bp size =>
    rw [Act.perform, map_eq_pure_bind]
    apply (reallocate_shadows bp size ht).bind
    intro moved m m' hm
    exact (oblivious_pure (some moved)).shadows hm
  | write bp start data =>
    exact ((writePayload_oblivious bp start data).bind fun _ => oblivious_pure none).shadows ht

end

/-- What a caller asks of a heap: an act, or which block starts at an address, told by its distance from
the base. -/
inductive Call where
  | act (act : Act)
  | find (distance : Int)

namespace Call

def perform : Call → HeapM (Option Nat)
  | .act a => a.perform
  | .find distance => query fun h => h.allocatedAt (h.arena.base + distance).toNat

def keep (held : List Nat) : Call → Except Failure (Option Nat) → List Nat
  | .act (.allocate _), .ok (some bp) => bp :: held
  | .act (.release bp), .ok _ => held.filter (· ≠ bp)
  | .act (.reallocate bp _), .ok (some moved) => moved :: held.filter (· ≠ bp)
  | _, _ => held

def honest (h : Heap) (held : List Nat) : Call → Bool
  | .act (.allocate _) => true
  | .act (.release bp) => bp ∈ held
  | .act (.reallocate bp _) => bp ∈ held
  | .act (.write bp start data) => bp ∈ held ∧
    (h.payloadSize bp).toOption.any fun room => start + data.size ≤ room
  | .find _ => true

end Call

/-- The answer to a call, with the granted bytes and the cursor after it. -/
structure Reply where
  answer : Except Failure (Option Nat)
  region : Region
  cursor : Nat

namespace Session

def replies : List Call → Session → List Reply
  | [], _ => []
  | call :: calls, n =>
    let (answer, next) := outcome (call.perform n)
    ⟨answer, next.heap.region, next.heap.cursor⟩ :: replies calls next

def honest : List Call → List Nat → Session → Bool
  | [], _, _ => true
  | call :: calls, held, n => call.honest n.heap held &&
    let (answer, next) := outcome (call.perform n)
    honest calls (call.keep held answer) next

end Session

structure Heap.Booked (h : Heap) (o : Outline) (held : List Nat) : Prop where
  sound : h.Sound o
  held : ∀ bp, bp ∈ held ↔ bp ∈ o.held

def Call.Proceeds (call : Call) (held : List Nat) (n : Session) : Prop :=
  ∃ o', (outcome (call.perform n)).2.heap.Booked o' (call.keep held (outcome (call.perform n)).1) ∧
    ∀ t, (outcome (call.perform n)).1 ≠ .error (.trapped t)

section

variable {n n' : Session} {o : Outline} {held : List Nat}

theorem proceeds_of_ok {call : Call} {found : Option Nat} {m : Session}
    (hrun : call.perform n = .ok found m) (hb : m.heap.Booked o (call.keep held (.ok found))) :
    call.Proceeds held n := by
  rw [Call.Proceeds, hrun]
  exact ⟨o, hb, by simp [outcome]⟩

theorem allocate_proceeds (hb : n.heap.Booked o held) (size : Nat) :
    (Call.act (.allocate size)).Proceeds held n := by
  rcases Heap.allocate_run hb.sound size n.journal with
    ⟨j', hrun, -⟩ | ⟨b, o', h', j', hrun, -, hg, hs', -⟩
  · exact proceeds_of_ok hrun hb
  · refine proceeds_of_ok hrun ⟨hs', fun bp => ?_⟩
    rw [Call.keep, List.mem_cons, hb.held, hg.mem_held]

theorem release_proceeds (hb : n.heap.Booked o held) {bp : Nat} (hbp : bp ∈ held) :
    (Call.act (.release bp)).Proceeds held n := by
  obtain ⟨h', j', hrun, hs', -⟩ := Heap.release_run hb.sound ((hb.held bp).1 hbp) n.journal
  refine proceeds_of_ok (bind_ok hrun _) ⟨hs', fun x => ?_⟩
  rw [Call.keep, Outline.mem_release_held, List.mem_filter, decide_eq_true_eq, hb.held, and_comm]

theorem reallocate_proceeds (hb : n.heap.Booked o held) {bp : Nat} (hbp : bp ∈ held) (size : Nat) :
    (Call.act (.reallocate bp size)).Proceeds held n := by
  have hold := (hb.held bp).1 hbp
  have hperform : (Call.act (.reallocate bp size)).perform n =
      (reallocate bp size >>= fun moved => pure (some moved)) n :=
    congrFun (map_eq_pure_bind _ _) n
  rcases Heap.reallocate_run hb.sound hold size n.journal with
    ⟨why, j', hrun, -⟩ | ⟨c, o₁, h', j', hrun, -, hg, hs', -⟩
  · rw [Call.Proceeds, hperform, bind_error hrun]
    exact ⟨o, hb, by simp [outcome]⟩
  · have hok := hperform.trans (bind_ok hrun _)
    refine proceeds_of_ok hok ⟨hs', fun x => ?_⟩
    have hne : c.bp ≠ bp := fun heq => hg.fresh (heq ▸ hold)
    rw [Call.keep, Outline.mem_release_held, hg.mem_held, List.mem_cons, List.mem_filter,
      decide_eq_true_eq, hb.held]
    constructor
    · rintro (rfl | ⟨hx, hxbp⟩)
      · exact ⟨hne, .inl rfl⟩
      · exact ⟨hxbp, .inr hx⟩
    · rintro ⟨hxbp, hx⟩
      exact hx.imp_right fun hx => ⟨hx, hxbp⟩

theorem write_proceeds (hb : n.heap.Booked o held) {bp start : Nat} {data : ByteArray}
    (hhonest : (Call.act (.write bp start data)).honest n.heap held = true) :
    (Call.act (.write bp start data)).Proceeds held n := by
  obtain ⟨hbp, hroom⟩ := of_decide_eq_true hhonest
  obtain ⟨b, hmem, -, rfl⟩ := Outline.mem_held.1 ((hb.held bp).1 hbp)
  rw [hb.sound.depicts.payloadSize hb.sound.valid.toLaid hmem] at hroom
  have hfit : start + data.size ≤ b.size - 8 := of_decide_eq_true hroom
  have hnone : ∀ c ∈ ([] : List Block), c ∈ o.blocks ∧ c ≠ b := by simp
  obtain ⟨h', hrun, hs', -⟩ := Heap.writePayload_run hb.sound hmem hfit hnone n.journal
  exact proceeds_of_ok (bind_ok hrun _) ⟨hs', hb.held⟩

theorem find_run (hd : n.heap.Depicts o) (hl : o.Laid) (distance : Int) :
    (Call.find distance).perform n =
      .ok (if distance.toNat ∈ o.held then some distance.toNat else none) n :=
  query_run (f := fun h => h.allocatedAt (h.arena.base + distance).toNat)
    (hd.allocatedAt_distance hl distance) n.journal

theorem honest_proceeds (hb : n.heap.Booked o held) {call : Call}
    (hhonest : call.honest n.heap held = true) : call.Proceeds held n := by
  cases call with
  | find distance =>
    exact proceeds_of_ok (find_run hb.sound.depicts hb.sound.valid.toLaid distance) hb
  | act act =>
    cases act with
    | allocate size => exact allocate_proceeds hb size
    | release bp => exact release_proceeds hb (of_decide_eq_true hhonest)
    | reallocate bp size => exact reallocate_proceeds hb (of_decide_eq_true hhonest) size
    | write bp start data => exact write_proceeds hb hhonest

theorem Twins.depicts (ht : Twins n n') (hd : n.heap.Depicts o) : n'.heap.Depicts o :=
  ⟨ht.alike.region ▸ hd.region, ht.alike.cursor.symm.trans hd.cursor⟩

theorem honest_matches (ht : Twins n n') (hb : n.heap.Booked o held) {call : Call}
    (hproceeds : call.Proceeds held n) : Matches Twins (call.perform n) (call.perform n') := by
  cases call with
  | find distance =>
    -- the bases may differ, so both answers are told from the outline
    have hd := hb.sound.depicts
    have hl := hb.sound.valid.toLaid
    rw [find_run hd hl, find_run (ht.depicts hd) hl]
    exact ⟨rfl, ht⟩
  | act act =>
    rcases perform_shadows act ht with ⟨t, m, htrap⟩ | hmatches
    · obtain ⟨o', -, hnot⟩ := hproceeds
      exact absurd (congrArg (fun x => (outcome x).1) htrap) (hnot t)
    · exact hmatches

theorem Heap.Alike.honest {h h' : Heap} (hsame : h.Alike h') (call : Call) :
    call.honest h' held = call.honest h held := by
  cases call with
  | find distance => rfl
  | act act =>
    cases act with
    | write bp start data => simp only [Call.honest, hsame.payloadSize]
    | _ => rfl

theorem twins_reply_alike {calls : List Call} (ht : Twins n n') (hb : n.heap.Booked o held) :
    n'.honest calls held = n.honest calls held ∧ (n.honest calls held = true →
      n'.replies calls = n.replies calls ∧
        ∀ x ∈ n.replies calls, ∀ t, x.answer ≠ .error (.trapped t)) := by
  induction calls generalizing n n' o held with
  | nil => exact ⟨rfl, fun _ => ⟨rfl, by simp [Session.replies]⟩⟩
  | cons call calls ih =>
    simp only [Session.honest, Session.replies, ht.alike.honest call]
    cases hhonest : call.honest n.heap held with
    | false => simp
    | true =>
      have hproceeds := honest_proceeds hb hhonest
      obtain ⟨hanswer, hnext⟩ := (honest_matches ht hb hproceeds).outcome
      obtain ⟨o', hb', hnot⟩ := hproceeds
      obtain ⟨hsame, hreplies⟩ := ih hnext hb'
      rw [← hanswer, ← hnext.alike.region, ← hnext.alike.cursor, hsame]
      refine ⟨rfl, fun hrest => ?_⟩
      obtain ⟨hrest, hclean⟩ := hreplies hrest
      rw [hrest]
      refine ⟨rfl, fun x hx => ?_⟩
      rcases List.mem_cons.1 hx with rfl | hx
      · exact hnot
      · exact hclean x hx

end

theorem layOut_oblivious : Oblivious layOut :=
  (oblivious_grow _).bind fun _ => oblivious_edit _

theorem furnish_matches (t : Settings) (checked checked' : Bool) {n n' : Session} (ht : Twins n n') :
    Matches Twins (Heap.furnish { t with checked } n)
      (Heap.furnish { t with checked := checked' } n') := by
  apply Matches.bind (oblivious_record _ Twins twins_indifferent ht)
  intro _ m m' _ _ hm
  apply Matches.bind (layOut_oblivious Twins twins_indifferent hm)
  intro _ m m' _ _ hm
  apply Matches.bind (((extend_oblivious t.chunk).map fun _ => ()) Twins twins_indifferent hm)
  intro _ m m' _ _ hm
  exact ⟨rfl, hm.alike, hm.untracked⟩

theorem reserved_twins (t : Settings) (base base' : Nat) :
    Twins ⟨Heap.reserved { t with checked := true } base, #[]⟩
      ⟨Heap.reserved { t with checked := false } base', #[]⟩ :=
  ⟨⟨rfl, rfl, rfl, rfl, rfl⟩, rfl⟩

theorem create_twins {s t : Settings} (base base' : Nat) (hs : s.validate = .ok t) :
    ∃ n n', Heap.create { s with checked := true } (.ok base) = .ok n ∧
      Heap.create { s with checked := false } (.ok base') = .ok n' ∧ n.heap.live.isSome = true ∧
      Twins n n' ∧ n.heap.Booked (Outline.bare.extend t.chunk) [] := by
  have hvalid : ∀ checked, ({ s with checked } : Settings).validate = .ok { t with checked } := by
    intro checked
    rw [Settings.validate_checked, hs]
    rfl
  obtain ⟨n, hcreate, hsound, -, -, -, hlive⟩ := Heap.create_sound base (hvalid true)
  have hrun := (Heap.create_ok_iff base (hvalid true)).1 hcreate
  obtain ⟨n', hrun', ht⟩ := (furnish_matches t true false (reserved_twins t base base')).ok hrun
  have hcreate' := (Heap.create_ok_iff base' (hvalid false)).2 hrun'
  refine ⟨n, n', hcreate, hcreate', hlive, ht, hsound, fun bp => ?_⟩
  rw [Outline.bare_extend_held]

namespace Session

/-- Whatever the accepted settings, a caller that names only blocks it holds is told the same by a
checked heap and by an unchecked one, call for call, and never meets a trap. -/
theorem checked_and_unchecked_reply_alike {s t : Settings} (base base' : Nat)
    (hs : s.validate = .ok t) :
    ∃ n n', Heap.create { s with checked := true } (.ok base) = .ok n ∧
      Heap.create { s with checked := false } (.ok base') = .ok n' ∧
      n.heap.live.isSome = true ∧ n'.heap.live = none ∧
      n'.heap.region = n.heap.region ∧ n'.heap.cursor = n.heap.cursor ∧
      ∀ calls, n'.honest calls [] = n.honest calls [] ∧ (n.honest calls [] = true →
        n'.replies calls = n.replies calls ∧
          ∀ x ∈ n.replies calls, ∀ t, x.answer ≠ .error (.trapped t)) := by
  obtain ⟨n, n', hn, hn', hlive, ht, hb⟩ := create_twins base base' hs
  exact ⟨n, n', hn, hn', hlive, ht.untracked, ht.alike.region.symm, ht.alike.cursor.symm,
    fun _ => twins_reply_alike ht hb⟩

def lending : List Call :=
  [.act (.allocate 20), .act (.write 16 3 ⟨#[9, 9]⟩), .find 16, .find 24, .act (.reallocate 16 40),
    .find 16, .act (.allocate 1000), .act (.reallocate 48 0), .act (.release 48), .find (-8)]

theorem lending_replies_alike : ∃ n n', Heap.create ⟨12, 128, true⟩ (.ok 4096) = .ok n ∧
    Heap.create ⟨12, 128, false⟩ (.ok 8192) = .ok n' ∧ n.honest lending [] = true ∧
      n'.replies lending = n.replies lending ∧
        (n.replies lending).map Reply.answer = [.ok (some 16), .ok none, .ok (some 16), .ok none,
          .ok (some 48), .ok none, .ok none, .error (.refused .zeroSize), .ok none, .ok none] := by
  have hvalid : Settings.validate ⟨12, 128, true⟩ = .ok ⟨16, 128, true⟩ := by decide +kernel
  have hcheck : ((Heap.create ⟨12, 128, true⟩ (.ok 4096)).map fun n =>
      (n.honest lending [], (n.replies lending).map Reply.answer)) =
        .ok (true, [.ok (some 16), .ok none, .ok (some 16), .ok none, .ok (some 48), .ok none, .ok none,
          .error (.refused .zeroSize), .ok none, .ok none]) := by
    decide +kernel
  obtain ⟨n, n', hn, hn', -, -, -, -, hall⟩ := checked_and_unchecked_reply_alike 4096 8192 hvalid
  rw [hn] at hcheck
  obtain ⟨hhonest, hanswers⟩ := Prod.mk.inj (Except.ok.inj hcheck)
  exact ⟨n, n', hn, hn', hhonest, ((hall lending).2 hhonest).1, hanswers⟩

end Session

end BoundaryTag
