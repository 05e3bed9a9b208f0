import BoundaryTag.Proofs.Checking

/-!
# Checks and walks on any bytes

Nothing is assumed here of the bytes or of the cursor: the blocks may overrun the region, overlap the
prologue or stop short. The check still ends and never traps, and it finds a block out of bounds
exactly when the walk over the blocks traps. The two meet the top at different bytes: the check asks
whether a block's footer lies in the region, the walk only whether the next header does.
-/

set_option autoImplicit false

namespace BoundaryTag

def Ending.trap : Ending → Option Trap
  | .epilogue _ _ => none
  | .outOfBounds _ => some .outOfBounds

def Fault.beyond : Fault → Bool
  | .outOfBounds _ => true
  | _ => false

namespace Region

variable {r : Region} {bp : Nat}

theorem Surveyed.sized {s : Survey} (h : r.Surveyed bp s) : Sized (s.entries.map Entry.block) := by
  intro b hb
  obtain ⟨e, he, rfl⟩ := List.mem_map.1 hb
  exact (h.entries e he).2

theorem Surveyed.ascending {s : Survey} (h : r.Surveyed bp s) :
    (s.entries.map Entry.bp).Pairwise (· < ·) := by
  have hblocks := h.abut.ascending h.sized
  rwa [List.map_map] at hblocks

theorem walk_trap {t : Trap} (h : r.tagAt bp = .error t) : r.walk bp = ⟨[], bp, some t⟩ := by
  rw [walk]
  split
  · next t' h' =>
    obtain rfl : t' = t := by simp_all
    rfl
  · simp_all

theorem walk_beyond (h4 : 4 ≤ bp) (h : r.size < bp) :
    r.walk bp = ⟨[], bp, some .outOfBounds⟩ := by
  apply walk_trap
  simp only [tagAt, header, headerAt, minus_of_le h4, bind, Except.bind, readWord, wordBytes]
  rw [if_neg (by omega)]
  rfl

structure Walked (r : Region) (bp : Nat) (s : Survey) : Prop where
  trap : (r.walk bp).trap = s.ending.trap
  blocks : s.ending.trap = none → (r.walk bp).blocks = s.entries.map Entry.block

theorem walked_of_survey (h4 : 4 ≤ bp) {s : Survey} (hs : r.survey bp = .ok s) :
    r.Walked bp s := by
  -- the induction is that of the pass, which may end one block before the walk meets a header beyond
  induction hn : r.size + 1 - bp using Nat.strong_induction_on generalizing bp s with
  | h n ih =>
    by_cases hle : bp ≤ r.size
    · have htag := tagAt_eq h4 hle
      by_cases hzero : (r.entry bp).size = 0
      · rw [survey_stop h4 hle hzero] at hs
        obtain rfl := Except.ok.inj hs
        have hwalk := walk_stop htag hzero
        exact ⟨by rw [hwalk]; rfl, fun _ => by rw [hwalk]; rfl⟩
      · have hwalk := walk_step htag hzero
        rw [← size_entry] at hwalk
        have hnext4 : 4 ≤ bp + (r.entry bp).size := by omega
        by_cases hreach : bp + (r.entry bp).size - 4 ≤ r.size
        · obtain ⟨rest, hrest, -⟩ := r.survey_total hnext4
          rw [survey_step h4 hle hzero hreach, hrest] at hs
          obtain rfl := Except.ok.inj hs
          have hw : r.Walked (bp + (r.entry bp).size) rest := ih _ (by omega) hnext4 hrest rfl
          constructor
          · rw [hwalk]
            exact hw.trap
          · intro hend
            rw [hwalk, hw.blocks hend]
            exact congrArg (· :: rest.entries.map Entry.block) (block_entry r bp).symm
        · rw [survey_long h4 hle hzero (by omega)] at hs
          obtain rfl := Except.ok.inj hs
          have hnext := walk_beyond hnext4 (show r.size < bp + (r.entry bp).size by omega)
          refine ⟨by rw [hwalk, hnext]; rfl, fun hend => ?_⟩
          cases hend
    · rw [survey_beyond (by omega)] at hs
      obtain rfl := Except.ok.inj hs
      refine ⟨by rw [walk_beyond h4 (by omega)]; rfl, fun hend => ?_⟩
      cases hend

end Region

theorem exists_of_mem_entryFaults {base : Nat} {afterFree : Bool} {es : List Entry} {f : Fault}
    (hf : f ∈ Survey.entryFaults base afterFree es) : ∃ e ∈ es, ∃ a, f ∈ e.faults base a := by
  induction es generalizing afterFree with
  | nil => exact absurd hf List.not_mem_nil
  | cons e es ih =>
    rcases List.mem_append.1 hf with hf | hf
    · exact ⟨e, List.mem_cons_self, afterFree, hf⟩
    · obtain ⟨d, hd, hfault⟩ := ih hf
      exact ⟨d, List.mem_cons_of_mem _ hd, hfault⟩

theorem mem_entry_faults {base : Nat} {afterFree : Bool} {e : Entry} {f : Fault}
    (hf : f ∈ e.faults base afterFree) : f.beyond = false ∧
      ∀ bp, f = .misaligned bp → (base + e.bp) % addressLimit % 8 ≠ 0 := by
  simp only [Entry.faults, List.mem_append, List.mem_ite_nil_right, List.mem_singleton,
    or_assoc] at hf
  rcases hf with ⟨hbase, rfl⟩ | ⟨-, rfl⟩ | ⟨-, rfl⟩ | ⟨-, rfl⟩
  · exact ⟨rfl, fun _ _ => hbase⟩
  all_goals
    refine ⟨rfl, fun bp hbp => ?_⟩
    cases hbp

theorem filter_endFaults (s : Survey) (top cursor : Nat) :
    (s.endFaults top cursor).filter Fault.beyond = match s.ending with
      | .epilogue _ _ => []
      | .outOfBounds bp => [.outOfBounds bp] := by
  cases hend : s.ending with
  | outOfBounds bp =>
    rw [Survey.endFaults, hend]
    rfl
  | epilogue bp w =>
    simp only [Survey.endFaults, hend, List.filter_append]
    split <;> split <;> rfl

theorem misaligned_not_mem_endFaults {s : Survey} {top cursor bp : Nat} :
    .misaligned bp ∉ s.endFaults top cursor := by
  rw [Survey.endFaults]
  split
  · simp
  · simp only [List.mem_append, not_or]
    constructor <;> split <;> simp

namespace Heap

variable {h : Heap} {s : Survey} {fs : List Fault}

theorem faults_split (hsurvey : h.survey = .ok s) (hf : h.faults = .ok fs) : ∃ first : Tag,
    fs = (if first = ⟨8, true⟩ then [] else [.badPrologue]) ++
      Survey.entryFaults h.arena.base false s.entries ++ s.endFaults h.size h.cursor := by
  cases htag : h.region.tagAt 8 with
  | error t =>
    rw [Heap.faults, htag] at hf
    cases hf
  | ok first =>
    simp only [Heap.faults, htag, hsurvey, bind, Except.bind, pure, Except.pure,
      Except.ok.injEq] at hf
    exact ⟨first, hf.symm⟩

theorem filter_faults (hsurvey : h.survey = .ok s) (hf : h.faults = .ok fs) :
    fs.filter Fault.beyond = match s.ending with
      | .epilogue _ _ => []
      | .outOfBounds bp => [.outOfBounds bp] := by
  obtain ⟨first, rfl⟩ := faults_split hsurvey hf
  have hfirst : (if first = ⟨8, true⟩ then [] else [Fault.badPrologue]).filter Fault.beyond = [] := by
    split <;> rfl
  have hentries :
      (Survey.entryFaults h.arena.base false s.entries).filter Fault.beyond = [] := by
    apply List.filter_eq_nil_iff.2
    intro f hmem
    obtain ⟨e, -, a, hfault⟩ := exists_of_mem_entryFaults hmem
    simp [(mem_entry_faults hfault).1]
  rw [List.filter_append, List.filter_append, hfirst, hentries, filter_endFaults]
  rfl

theorem outOfBounds_mem_faults (hsurvey : h.survey = .ok s) (hf : h.faults = .ok fs) {bp : Nat} :
    .outOfBounds bp ∈ fs ↔ s.ending = .outOfBounds bp := by
  have hmem : .outOfBounds bp ∈ fs ↔ .outOfBounds bp ∈ fs.filter Fault.beyond := by
    simp [List.mem_filter, Fault.beyond]
  rw [hmem, filter_faults hsurvey hf]
  cases s.ending with
  | epilogue p w => simp
  | outOfBounds p => simp [eq_comm]

theorem misaligned_not_mem_faults (hsurvey : h.survey = .ok s) (hread : h.region.Surveyed 8 s)
    (hf : h.faults = .ok fs) (hbase : h.arena.base % 8 = 0) (bp : Nat) :
    .misaligned bp ∉ fs := by
  obtain ⟨first, rfl⟩ := faults_split hsurvey hf
  intro hmem
  rcases List.mem_append.1 hmem with hmem | hmem
  · rcases List.mem_append.1 hmem with hmem | hmem
    · split at hmem <;> simp at hmem
    · obtain ⟨e, he, a, hfault⟩ := exists_of_mem_entryFaults hmem
      have hbp : e.bp % 8 = 0 :=
        (hread.abut.aligned hread.sized (by decide)).1 e.block (List.mem_map_of_mem he)
      have hwrong := (mem_entry_faults hfault).2 bp rfl
      simp only [addressLimit] at hwrong
      omega
  · exact misaligned_not_mem_endFaults hmem

theorem walk_from_prologue (h8 : 8 ≤ h.size) :
    h.walk = { h.region.walk 8 with blocks := (h.region.walk 8).blocks.tail } := by
  have htag := Region.tagAt_eq (r := h.region) (show 4 ≤ 8 by decide) h8
  have hnext : h.region.next 8 = .ok (8 + (Tag.ofWord (h.region.word 4)).size) := by
    simp only [Region.next, htag, bind, Except.bind, pure, Except.pure]
  rw [Heap.walk, hnext]
  by_cases hzero : (Tag.ofWord (h.region.word 4)).size = 0
  · simp only [hzero, Nat.add_zero, Region.walk_stop htag hzero, List.tail_nil]
  · rw [Region.walk_step htag hzero]
    rfl

theorem blocks_of_survey (h8 : 8 ≤ h.size) (hsurvey : h.survey = .ok s) :
    h.blocks = match s.ending with
      | .epilogue _ _ => .ok (s.entries.tail.map Entry.block)
      | .outOfBounds _ => .error .outOfBounds := by
  have hw := Region.walked_of_survey (show 4 ≤ 8 by decide) hsurvey
  have htrap := hw.trap
  have hblocks := hw.blocks
  rw [Heap.blocks, walk_from_prologue h8, Walk.complete]
  cases hend : s.ending with
  | epilogue p w =>
    rw [hend] at htrap hblocks
    rw [htrap, hblocks rfl, List.map_tail]
    rfl
  | outOfBounds p =>
    rw [hend] at htrap
    rw [htrap]
    rfl

theorem record_faults (fs : List Fault) (j : Array Event) :
    (forIn fs PUnit.unit fun fault _ => do
      HeapM.record (.faultFound fault)
      return ForInStep.yield PUnit.unit : HeapM PUnit) ⟨h, j⟩ =
      .ok PUnit.unit ⟨h, j ++ (fs.map Event.faultFound).toArray⟩ := by
  induction fs generalizing j with
  | nil => rw [List.map_nil, Array.append_empty, List.forIn_nil, pure_ok]
  | cons f fs ih =>
    have hpush : j ++ ((f :: fs).map Event.faultFound).toArray =
        j.push (.faultFound f) ++ (fs.map Event.faultFound).toArray := by simp
    have hstep : (do
        HeapM.record (.faultFound f)
        return ForInStep.yield PUnit.unit : HeapM (ForInStep PUnit)) ⟨h, j⟩ =
        .ok (.yield PUnit.unit) ⟨h, j.push (.faultFound f)⟩ := rfl
    rw [hpush, ← ih, List.forIn_cons]
    exact bind_ok hstep _

theorem inspect_run (hf : h.faults = .ok fs) (j : Array Event) :
    inspect ⟨h, j⟩ = .ok fs ⟨h, j ++ (fs.map Event.faultFound).toArray⟩ := by
  rw [inspect, bind_ok (HeapM.query_run hf j), bind_ok (record_faults fs j)]
  rfl

/-- A check ended after the pass `s` with the faults `fs`, and goes together with the walk over the
blocks. -/
structure Reports (h : Heap) (s : Survey) (fs : List Fault) : Prop where
  survey : h.survey = .ok s
  run : ∀ j, inspect ⟨h, j⟩ = .ok fs ⟨h, j ++ (fs.map Event.faultFound).toArray⟩
  shown : ∃ lines, h.listing = .ok lines
  first : ∀ e ∈ s.entries.head?, e.bp = prologue
  ascending : (s.entries.map Entry.bp).Pairwise (· < ·)
  once : fs.countP Fault.beyond ≤ 1
  beyond : (∃ bp, .outOfBounds bp ∈ fs) ↔ ∃ t, h.blocks = .error t
  listed : (∀ bp, .outOfBounds bp ∉ fs) → h.blocks = .ok (s.entries.tail.map Entry.block)
  aligned : h.arena.base % 8 = 0 → ∀ bp, .misaligned bp ∉ fs
  inRange : h.size + maxBlock < addressLimit → ∀ bp tag, h.region.tagAt bp = .ok tag →
    bp + tag.size < addressLimit

/-- On any bytes that hold a first header, and with any cursor, a check comes to its end. It finds at
most one block out of bounds, and finds one exactly when the walk over the blocks traps; where it does
not, the walk lists the blocks that the check passed after the prologue. -/
theorem any_heap_reported (h8 : 8 ≤ h.size) : ∃ s fs, h.Reports s fs := by
  obtain ⟨s, hsurvey, hread⟩ := h.region.survey_total (show 4 ≤ 8 by decide)
  obtain ⟨fs, hf⟩ := h.faults_total h8
  have hbeyond : ∀ bp, .outOfBounds bp ∈ fs ↔ s.ending = .outOfBounds bp :=
    fun bp => outOfBounds_mem_faults hsurvey hf
  have hblocks := blocks_of_survey h8 hsurvey
  refine ⟨s, fs, ?_⟩
  constructor
  case survey => exact hsurvey
  case run => exact inspect_run hf
  case shown =>
    have hrun : h.survey = .ok s := hsurvey
    rw [Heap.listing, hrun]
    exact ⟨_, rfl⟩
  case first =>
    intro e he
    obtain ⟨es, hes⟩ := List.head?_eq_some_iff.1 he
    have habut := hread.abut
    rw [hes] at habut
    exact habut.1
  case ascending => exact hread.ascending
  case once =>
    rw [List.countP_eq_length_filter, filter_faults hsurvey hf]
    cases s.ending with
    | epilogue p w => exact Nat.zero_le 1
    | outOfBounds p => exact Nat.le_refl 1
  case beyond =>
    simp only [hbeyond, hblocks]
    cases s.ending with
    | epilogue p w => simp
    | outOfBounds p => simp
  case listed =>
    intro hnone
    rw [hblocks]
    cases hend : s.ending with
    | epilogue p w => rfl
    | outOfBounds p => exact absurd ((hbeyond p).2 hend) (hnone p)
  case aligned => exact misaligned_not_mem_faults hsurvey hread hf
  case inRange =>
    intro hsize bp tag htag
    exact Nat.lt_of_le_of_lt (Region.reach_le htag) hsize

def cutShort : Heap where
  arena := ⟨4096, ⟨⟨#[0, 0, 0, 0, 9, 0, 0, 0, 9, 0, 0, 0, 16, 0, 0, 0, 1, 2, 3, 4, 5, 6, 7, 8,
    16, 0, 0, 0]⟩⟩, ⟨ByteArray.empty⟩, 64⟩
  settings := ⟨16, 64, true⟩
  cursor := 5
  live := none

theorem cutShort_reported : cutShort.faults = .ok [.outOfBounds 32] ∧
    ∃ s fs, cutShort.Reports s fs := by
  constructor
  · decide +kernel
  · exact any_heap_reported (by decide +kernel)

end Heap

end BoundaryTag
