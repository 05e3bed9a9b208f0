import BoundaryTag.Heap.Allocation

/-!
# Running steps

One equation for each primitive step: what it returns and the state it leaves. An operation is opened
by these equations and the reads and writes it makes; nothing below is unfolded again. Where two runs
are compared, `Matches` says that they end alike.
-/

set_option autoImplicit false

namespace BoundaryTag

section

variable {ε σ α β : Type} {s s' : σ}

theorem pure_ok (a : α) (s : σ) : (pure a : EStateM ε σ α) s = .ok a s := rfl

theorem bind_ok {x : EStateM ε σ α} {a : α} (h : x s = .ok a s') (f : α → EStateM ε σ β) :
    (x >>= f) s = f a s' := by
  show EStateM.bind x f s = _
  simp only [EStateM.bind, h]

theorem bind_error {x : EStateM ε σ α} {e : ε} (h : x s = .error e s') (f : α → EStateM ε σ β) :
    (x >>= f) s = .error e s' := by
  show EStateM.bind x f s = _
  simp only [EStateM.bind, h]

theorem exists_of_bind_ok {x : EStateM ε σ α} {f : α → EStateM ε σ β} {b : β}
    (h : (x >>= f) s = .ok b s') : ∃ a s₁, x s = .ok a s₁ ∧ f a s₁ = .ok b s' := by
  cases hx : x s with
  | ok a s₁ =>
    rw [bind_ok hx] at h
    exact ⟨a, s₁, rfl, h⟩
  | error e s₁ =>
    rw [bind_error hx] at h
    cases h

theorem map_ok {x : EStateM ε σ α} {a : α} (h : x s = .ok a s') (f : α → β) :
    (f <$> x) s = .ok (f a) s' := by
  show EStateM.map f x s = _
  simp only [EStateM.map, h]

theorem discard_ok {x : EStateM ε σ α} {a : α} (h : x s = .ok a s') :
    discard x s = .ok () s' := map_ok h fun _ => ()

end

/-- Both runs end in the same way, in related states. -/
def Matches {ε σ τ α : Type} (R : σ → τ → Prop) :
    EStateM.Result ε σ α → EStateM.Result ε τ α → Prop
  | .ok a s, .ok b t => a = b ∧ R s t
  | .error e s, .error f t => e = f ∧ R s t
  | _, _ => False

section

variable {ε σ τ α β : Type} {R : σ → τ → Prop} {s : σ} {t : τ}

theorem Matches.ok {x : EStateM.Result ε σ α} {y : EStateM.Result ε τ α} {a : α} {s' : σ}
    (h : Matches R x y) (hx : x = .ok a s') : ∃ t', y = .ok a t' ∧ R s' t' := by
  subst hx
  cases y with
  | ok b t' =>
    obtain ⟨rfl, hr⟩ := h
    exact ⟨t', rfl, hr⟩
  | error f t' => exact h.elim

theorem Matches.error {x : EStateM.Result ε σ α} {y : EStateM.Result ε τ α} {e : ε} {s' : σ}
    (h : Matches R x y) (hx : x = .error e s') : ∃ t', y = .error e t' ∧ R s' t' := by
  subst hx
  cases y with
  | ok b t' => exact h.elim
  | error f t' =>
    obtain ⟨rfl, hr⟩ := h
    exact ⟨t', rfl, hr⟩

theorem Matches.bind {x : EStateM ε σ α} {y : EStateM ε τ α} {f : α → EStateM ε σ β}
    {g : α → EStateM ε τ β} (hxy : Matches R (x s) (y t))
    (hfg : ∀ a s' t', x s = .ok a s' → y t = .ok a t' → R s' t' → Matches R (f a s') (g a t')) :
    Matches R ((x >>= f) s) ((y >>= g) t) := by
  cases hx : x s with
  | ok a s' =>
    obtain ⟨t', hy, hr⟩ := hxy.ok hx
    rw [bind_ok hx, bind_ok hy]
    exact hfg a s' t' hx hy hr
  | error e s' =>
    obtain ⟨t', hy, hr⟩ := hxy.error hx
    rw [bind_error hx, bind_error hy]
    exact ⟨rfl, hr⟩

end

/-- The answer of a step and the state it leaves, whether it failed or not. -/
def outcome {σ α : Type} : EStateM.Result Failure σ α → Except Failure α × σ
  | .ok a s => (.ok a, s)
  | .error e s => (.error e, s)

section

variable {σ τ α : Type} {x : EStateM.Result Failure σ α}

theorem ok_of_outcome {a : α} (h : (outcome x).1 = .ok a) : ∃ s, x = .ok a s := by
  cases x with
  | ok b s =>
    obtain rfl := Except.ok.inj h
    exact ⟨s, rfl⟩
  | error e s => cases h

theorem error_of_outcome {e : Failure} (h : (outcome x).1 = .error e) : ∃ s, x = .error e s := by
  cases x with
  | ok b s => cases h
  | error f s =>
    obtain rfl := Except.error.inj h
    exact ⟨s, rfl⟩

theorem Matches.outcome {R : σ → τ → Prop} {y : EStateM.Result Failure τ α} (h : Matches R x y) :
    (outcome x).1 = (outcome y).1 ∧ R (outcome x).2 (outcome y).2 := by
  cases x with
  | ok a s =>
    obtain ⟨t, rfl, hr⟩ := h.ok rfl
    exact ⟨rfl, hr⟩
  | error e s =>
    obtain ⟨t, rfl, hr⟩ := h.error rfl
    exact ⟨rfl, hr⟩

end

theorem Region.lift_run {α : Type} {x : Except Trap α} {a : α} (hx : x = .ok a) (r : Region) :
    (liftM x : RegionM α) r = .ok a r := by
  subst hx
  rfl

def Heap.withRegion (h : Heap) (r : Region) : Heap :=
  { h with arena := { h.arena with granted := r } }

@[simp] theorem Heap.region_withRegion (h : Heap) (r : Region) : (h.withRegion r).region = r := rfl

@[simp] theorem Heap.cursor_withRegion (h : Heap) (r : Region) :
    (h.withRegion r).cursor = h.cursor := rfl

namespace HeapM

variable {α : Type} (h : Heap) (j : Array Event)

theorem lift_run {x : Except Trap α} {a : α} (hx : x = .ok a) (s : Session) :
    (liftM x : HeapM α) s = .ok a s := by
  subst hx
  rfl

theorem read_run (f : Heap → α) : HeapM.read f ⟨h, j⟩ = .ok (f h) ⟨h, j⟩ := rfl

theorem query_run {f : Heap → Except Trap α} {a : α} {h : Heap} (hf : f h = .ok a)
    (j : Array Event) : query f ⟨h, j⟩ = .ok a ⟨h, j⟩ := by
  simp only [query, hf]

theorem look_run {f : Region → Except Trap α} {a : α} {h : Heap} (hf : f h.region = .ok a)
    (j : Array Event) : look f ⟨h, j⟩ = .ok a ⟨h, j⟩ := query_run hf j

theorem moveCursor_run (bp : Nat) :
    moveCursor bp ⟨h, j⟩ = .ok () ⟨{ h with cursor := bp }, j⟩ := rfl

theorem record_run (e : Event) : record e ⟨h, j⟩ = .ok () ⟨h, j.push e⟩ := rfl

theorem edit_run {act : RegionM α} {a : α} {r : Region} {h : Heap} (ha : act h.region = .ok a r)
    (j : Array Event) : edit act ⟨h, j⟩ = .ok a ⟨h.withRegion r, j⟩ := by
  simp only [Heap.region] at ha
  simp only [edit, Arena.edit, ha, Heap.withRegion]

theorem attempt_ok {act : HeapM α} {a : α} {s s' : Session} (ha : act s = .ok a s') :
    attempt act s = .ok (.ok a) s' := by
  simp only [attempt, ha]

theorem attempt_refused {act : HeapM α} {why : Refusal} {s s' : Session}
    (ha : act s = .error (.refused why) s') : attempt act s = .ok (.error why) s' := by
  simp only [attempt, ha]

theorem track_run {f : LiveBlocks → Except Trap LiveBlocks} {h : Heap}
    (hf : ∀ live, h.live = some live → ∃ live', f live = .ok live') (j : Array Event) :
    ∃ tracked, track f ⟨h, j⟩ = .ok () ⟨{ h with live := tracked }, j⟩ ∧
      tracked.isSome = h.live.isSome ∧
      ∀ live', tracked = some live' → ∃ live, h.live = some live ∧ f live = .ok live' := by
  obtain ⟨arena, settings, cursor, live⟩ := h
  cases live with
  | none => exact ⟨none, rfl, rfl, fun live' hlive => absurd hlive (by simp)⟩
  | some live =>
    obtain ⟨live', hlive⟩ := hf live rfl
    have hrun : track f ⟨⟨arena, settings, cursor, some live⟩, j⟩ =
        .ok () ⟨⟨arena, settings, cursor, some live'⟩, j⟩ := by simp only [track, hlive]
    refine ⟨some live', hrun, rfl, fun live'' heq => ⟨live, rfl, ?_⟩⟩
    rw [hlive, Option.some.inj heq]

theorem track_error {f : LiveBlocks → Except Trap LiveBlocks} {h : Heap} {live : LiveBlocks}
    {t : Trap} (hlive : h.live = some live) (hf : f live = .error t) (j : Array Event) :
    track f ⟨h, j⟩ = .error (.trapped t) ⟨h, j⟩ := by
  obtain ⟨arena, settings, cursor, _⟩ := h
  obtain rfl : _ = some live := hlive
  simp only [track, hf]

end HeapM

end BoundaryTag
