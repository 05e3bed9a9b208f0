import BoundaryTag.Proofs.Client
import BoundaryTag.Proofs.Safety
import BoundaryTag.Proofs.Sketching

/-!
# Noninterference

Payloads, the insides of free blocks, stale tags and padding have no part in what the operations decide.
Two heaps that show a caller the same view answer the same calls alike and go on showing the same view,
however their other bytes differ and whatever is written into their payloads in between.
-/

set_option autoImplicit false

namespace BoundaryTag

namespace Act

def isCall : Act → Bool
  | .write .. => false
  | _ => true

def names? : Act → Option Nat
  | .allocate _ => none
  | .release bp => some bp
  | .reallocate bp _ => some bp
  | .write bp _ _ => some bp

def perform : Act → HeapM (Option Nat)
  | .allocate size => BoundaryTag.allocate size
  | .release bp => do
    BoundaryTag.release bp
    return none
  | .reallocate bp size => some <$> BoundaryTag.reallocate bp size
  | .write bp start data => do
    writePayload bp start data
    return none

def sketch : Act → SketchM (Option Nat)
  | .allocate size => Sketch.allocate size
  | .release bp => do
    Sketch.release bp
    return none
  | .reallocate bp size => some <$> Sketch.reallocate bp size
  | .write .. => return none

end Act

/-- The answers to the calls of a run, each with a view of the state after it, and the last state. A
call that fails does not end the run. -/
def observe {σ ω : Type} (perform : Act → EStateM Failure σ (Option Nat)) (view : σ → ω) :
    List Act → σ → List (Except Failure (Option Nat) × ω) × σ
  | [], s => ([], s)
  | act :: acts, s =>
    let (answer, next) := outcome (perform act s)
    let (seen, last) := observe perform view acts next
    (if act.isCall then (answer, view next) :: seen else seen, last)

section

variable {σ ω : Type} {perform : Act → EStateM Failure σ (Option Nat)} {view : σ → ω} {act : Act}

theorem observe_call (hcall : act.isCall = true) (acts : List Act) (s : σ) :
    observe perform view (act :: acts) s =
      let (answer, next) := outcome (perform act s)
      ((answer, view next) :: (observe perform view acts next).1,
        (observe perform view acts next).2) := by
  simp only [observe, hcall, if_true]

theorem observe_write (hwrite : act.isCall = false) (acts : List Act) (s : σ) :
    observe perform view (act :: acts) s = observe perform view acts (outcome (perform act s)).2 := by
  simp only [observe, hwrite, Bool.false_eq_true, if_false]

end

def Sketch.view (k : Sketch) : View := ⟨k.outline.top, .ok k.outline.blocks, k.outline.cursor, k.live⟩

namespace Session

def play (acts : List Act) (n : Session) : List (Except Failure (Option Nat) × View) × Session :=
  observe Act.perform (fun n => n.heap.view) acts n

/-- Each act names a block that is allocated at its point. -/
def Lawful : List Act → Session → Prop
  | [], _ => True
  | act :: acts, n => (∀ bp ∈ act.names?, n.heap.ListsAllocated bp) ∧
    Lawful acts (outcome (act.perform n)).2

instance lawfulDecidable : (acts : List Act) → (n : Session) → Decidable (Lawful acts n)
  | [], _ => isTrue trivial
  | act :: acts, n =>
    have := lawfulDecidable acts (outcome (act.perform n)).2
    inferInstanceAs (Decidable ((∀ bp ∈ act.names?, n.heap.ListsAllocated bp) ∧
      Lawful acts (outcome (act.perform n)).2))

end Session

theorem Heap.Follows.view {h : Heap} {k : Sketch} (hk : h.Follows k) : h.view = k.view := by
  rw [hk.depicts.view hk.sound.valid.toLaid, hk.live, Sketch.view]

variable {n : Session} {k : Sketch}

theorem call_agrees (hk : n.heap.Follows k) {act : Act} (hcall : act.isCall = true)
    (hnames : ∀ bp ∈ act.names?, bp ∈ k.outline.held) : Agrees (act.perform n) (act.sketch k) := by
  cases act with
  | allocate size => exact Heap.allocate_agrees hk size n.journal
  | release bp =>
    apply Matches.bind (Heap.release_agrees hk (hnames bp rfl) n.journal)
    intro _ n' k' _ _ hk'
    exact ⟨rfl, hk'⟩
  | reallocate bp size =>
    rw [Act.perform, Act.sketch, map_eq_pure_bind, map_eq_pure_bind]
    apply Matches.bind (Heap.reallocate_agrees hk (hnames bp rfl) size n.journal)
    intro moved n' k' _ _ hk'
    exact ⟨rfl, hk'⟩
  | write bp start data => cases hcall

theorem write_follows (hk : n.heap.Follows k) {act : Act} (hwrite : act.isCall = false)
    (hnames : ∀ bp ∈ act.names?, bp ∈ k.outline.held) :
    (outcome (act.perform n)).2.heap.Follows k := by
  cases act with
  | write bp start data =>
    obtain ⟨h', hrun, hk'⟩ := Heap.writePayload_follows hk (hnames bp rfl) start data n.journal
    rw [Act.perform]
    rcases hrun with hrun | hrun
    · rw [bind_ok hrun]
      exact hk'
    · rw [bind_error hrun]
      exact hk'
  | _ => cases hwrite

theorem play_follows {acts : List Act} (hk : n.heap.Follows k) (hlawful : n.Lawful acts) :
    (n.play acts).1 = (observe Act.sketch Sketch.view (acts.filter Act.isCall) k).1 ∧
      (n.play acts).2.heap.Follows (observe Act.sketch Sketch.view (acts.filter Act.isCall) k).2 := by
  -- A call does the same to the heap and to the sketch, and a write leaves no mark on the sketch.
  induction acts generalizing n k with
  | nil => exact ⟨rfl, hk⟩
  | cons act acts ih =>
    obtain ⟨hnames, hrest⟩ := hlawful
    have hheld : ∀ bp ∈ act.names?, bp ∈ k.outline.held := fun bp hbp =>
      (Heap.listsAllocated_iff hk.depicts hk.sound.valid.toLaid).1 (hnames bp hbp)
    cases hcall : act.isCall with
    | true =>
      obtain ⟨hanswer, hk'⟩ := Matches.outcome (call_agrees hk hcall hheld)
      obtain ⟨hseen, hlast⟩ := ih hk' hrest
      rw [List.filter_cons_of_pos hcall, Session.play, observe_call hcall, observe_call hcall]
      refine ⟨?_, hlast⟩
      show _ :: (Session.play acts _).1 = _
      rw [hanswer, hk'.view, hseen]
    | false =>
      have hskip : ¬ act.isCall = true := by simp [hcall]
      rw [List.filter_cons_of_neg hskip, Session.play, observe_write hcall]
      exact ih (write_follows hk hcall hheld) hrest

theorem Sketch.eq_of_view {k' : Sketch} (hsettings : k.settings = k'.settings)
    (hview : k.view = k'.view) : k = k' := by
  obtain ⟨settings, ⟨blocks, top, cursor⟩, live⟩ := k
  obtain ⟨settings', ⟨blocks', top', cursor'⟩, live'⟩ := k'
  obtain ⟨rfl, hblocks, rfl, rfl⟩ := View.mk.inj hview
  obtain rfl : settings = settings' := hsettings
  obtain rfl := Except.ok.inj hblocks
  rfl

theorem Heap.Intact.follows {h : Heap} (hi : h.Intact) : ∃ k, h.Follows k := by
  have hc : (h.tracking none).Certified :=
    ⟨⟨hi.settings, hi.capacity, hi.size, hi.faultless⟩, fun live hl => by cases hl⟩
  obtain ⟨o, hsound, -⟩ := hc.sound
  exact ⟨⟨h.settings, o, h.live⟩, rfl, rfl, hsound⟩

/-- Take two heaps with the same settings that the checker accepts and that show the same view. Runs on
them with the same calls, and with any writes into allocated blocks in between, give the same answers,
and the view after each call is the same. -/
theorem Session.payloads_do_not_interfere {n₁ n₂ : Session} {acts₁ acts₂ : List Act}
    (hi₁ : n₁.heap.Intact) (hi₂ : n₂.heap.Intact)
    (hsettings : n₁.heap.settings = n₂.heap.settings) (hview : n₁.heap.view = n₂.heap.view)
    (hlawful₁ : n₁.Lawful acts₁) (hlawful₂ : n₂.Lawful acts₂)
    (hcalls : acts₁.filter Act.isCall = acts₂.filter Act.isCall) :
    (n₁.play acts₁).1 = (n₂.play acts₂).1 ∧
      (n₁.play acts₁).2.heap.view = (n₂.play acts₂).2.heap.view := by
  obtain ⟨k, hk₁⟩ := hi₁.follows
  obtain ⟨k', hk₂⟩ := hi₂.follows
  obtain rfl : k = k' := by
    apply Sketch.eq_of_view
    · rw [← hk₁.settings, ← hk₂.settings, hsettings]
    · rw [← hk₁.view, ← hk₂.view, hview]
  obtain ⟨hseen₁, hlast₁⟩ := play_follows hk₁ hlawful₁
  obtain ⟨hseen₂, hlast₂⟩ := play_follows hk₂ hlawful₂
  rw [hcalls] at hseen₁ hlast₁
  exact ⟨hseen₁.trans hseen₂.symm, hlast₁.view.trans hlast₂.view.symm⟩

def Heap.restrewn : Heap :=
  { strewn with
    arena := ⟨8192, ⟨⟨#[0, 0, 0, 0, 9, 0, 0, 0, 9, 0, 0, 0, 17, 0, 0, 0, 19, 0, 0, 0, 33, 0, 0, 0,
      17, 0, 0, 0, 16, 0, 0, 0, 255, 255, 255, 255, 1, 0, 0, 0, 16, 0, 0, 0, 5, 0, 0, 0]⟩⟩,
      ⟨ByteArray.empty⟩, 64⟩ }

def Heap.strewnActs : List Act :=
  [.write 16 2 ⟨#[9, 9]⟩, .allocate 8, .reallocate 16 5, .release 32, .allocate 100, .reallocate 48 0]

def Heap.restrewnActs : List Act :=
  [.allocate 8, .write 32 7 ⟨#[1]⟩, .reallocate 16 5, .write 48 0 ⟨#[3]⟩, .release 32, .allocate 100,
    .reallocate 48 0, .write 48 6 ⟨#[1, 2, 3]⟩]

theorem Heap.restrewn_intact : Heap.restrewn.Intact where
  settings := strewn_certified.settings
  capacity := rfl
  size := by decide +kernel
  faultless := by decide +kernel

theorem Session.strewn_payloads_do_not_interfere : Heap.strewn.Intact ∧ Heap.restrewn.Intact ∧
    Heap.strewn.view = Heap.restrewn.view ∧
    (Session.play Heap.strewnActs ⟨Heap.strewn, #[]⟩).1 =
      (Session.play Heap.restrewnActs ⟨Heap.restrewn, #[]⟩).1 ∧
    (Session.play Heap.strewnActs ⟨Heap.strewn, #[]⟩).2.heap.view =
      (Session.play Heap.restrewnActs ⟨Heap.restrewn, #[]⟩).2.heap.view := by
  have hi₁ := Heap.strewn_certified.toIntact
  have hi₂ := Heap.restrewn_intact
  have hview : Heap.strewn.view = Heap.restrewn.view := by decide +kernel
  have hlawful₁ : Session.Lawful Heap.strewnActs ⟨Heap.strewn, #[]⟩ := by decide +kernel
  have hlawful₂ : Session.Lawful Heap.restrewnActs ⟨Heap.restrewn, #[]⟩ := by decide +kernel
  exact ⟨hi₁, hi₂, hview, payloads_do_not_interfere hi₁ hi₂ rfl hview hlawful₁ hlawful₂ rfl⟩

end BoundaryTag
