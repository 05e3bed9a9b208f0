import BoundaryTag.Heap.Survey
import BoundaryTag.Proofs.Depiction

/-!
# What the checker accepts

The pass over the tags comes to an end on any bytes and lists blocks that follow one another. It
reports nothing exactly on the heaps that depict a valid outline of blocks of at least `minBlock`
bytes at an aligned base.
-/

set_option autoImplicit false

namespace BoundaryTag

def Entry.block (e : Entry) : Block := ⟨e.bp, e.size, !e.free⟩

def Ending.bp : Ending → Nat
  | .epilogue bp _ => bp
  | .outOfBounds bp => bp

namespace Region

variable {r : Region} {bp : Nat}

def entry (r : Region) (bp : Nat) : Entry :=
  ⟨bp, r.word (bp - 4), r.word (bp + (Tag.ofWord (r.word (bp - 4))).size - 8)⟩

theorem size_entry (r : Region) (bp : Nat) :
    (r.entry bp).size = (Tag.ofWord (r.word (bp - 4))).size := rfl

theorem block_entry (r : Region) (bp : Nat) :
    (r.entry bp).block = ⟨bp, (r.entry bp).size, (Tag.ofWord (r.word (bp - 4))).allocated⟩ := by
  rw [Entry.block, Entry.free, Bool.not_not]
  rfl

theorem survey_beyond (h : r.size < bp) : r.survey bp = .ok ⟨[], .outOfBounds bp⟩ := by
  rw [survey, dif_pos h]

theorem survey_stop (h4 : 4 ≤ bp) (hle : bp ≤ r.size) (hs : (r.entry bp).size = 0) :
    r.survey bp = .ok ⟨[], .epilogue bp (r.word (bp - 4))⟩ := by
  rw [survey, dif_neg (Nat.not_lt.2 hle), header_eq h4 hle]
  exact dif_pos hs

theorem reach_eq (h4 : 4 ≤ bp) :
    minus (bp + (r.entry bp).size) wordBytes = .ok (bp + (r.entry bp).size - 4) :=
  minus_of_le (by simp only [wordBytes]; omega)

theorem survey_long (h4 : 4 ≤ bp) (hle : bp ≤ r.size) (hs : (r.entry bp).size ≠ 0)
    (hlong : r.size < bp + (r.entry bp).size - 4) :
    r.survey bp = .ok ⟨[], .outOfBounds bp⟩ := by
  have hreach := reach_eq (r := r) h4
  rw [size_entry] at hs hlong hreach
  rw [survey, dif_neg (Nat.not_lt.2 hle), header_eq h4 hle]
  simp only [bind, Except.bind, dif_neg hs, hreach, if_pos hlong]
  rfl

theorem footer_eq (h4 : 4 ≤ bp) (hle : bp ≤ r.size) (hs : (r.entry bp).size ≠ 0)
    (hreach : bp + (r.entry bp).size - 4 ≤ r.size) : r.footer bp = .ok (r.entry bp).footer := by
  have h8 := Tag.size_ofWord_mod (r.word (bp - 4))
  rw [size_entry] at hs hreach
  have hminus : minus (bp + (Tag.ofWord (r.word (bp - 4))).size) unitBytes =
      .ok (bp + (Tag.ofWord (r.word (bp - 4))).size - 8) :=
    minus_of_le (by simp only [unitBytes]; omega)
  simp only [footer, footerAt, tagAt_eq h4 hle, bind, Except.bind, hminus]
  exact if_pos (by simp only [wordBytes]; omega)

theorem survey_step (h4 : 4 ≤ bp) (hle : bp ≤ r.size) (hs : (r.entry bp).size ≠ 0)
    (hreach : bp + (r.entry bp).size - 4 ≤ r.size) :
    r.survey bp = (r.survey (bp + (r.entry bp).size)).map fun s =>
      { s with entries := r.entry bp :: s.entries } := by
  have hminus := reach_eq (r := r) h4
  have hfooter := footer_eq h4 hle hs hreach
  rw [size_entry] at hs hreach hminus ⊢
  rw [survey, dif_neg (Nat.not_lt.2 hle), header_eq h4 hle]
  simp only [bind, Except.bind, dif_neg hs, hminus, if_neg (Nat.not_lt.2 hreach), hfooter]
  cases r.survey (bp + (Tag.ofWord (r.word (bp - 4))).size) with
  | error t => rfl
  | ok s => rfl

structure Surveyed (r : Region) (bp : Nat) (s : Survey) : Prop where
  entries : ∀ e ∈ s.entries, e = r.entry e.bp ∧ 8 ≤ e.size ∧ e.size % 8 = 0
  abut : Abut bp (s.entries.map Entry.block) s.ending.bp
  ending : ∀ p w, s.ending = .epilogue p w →
    p ≤ r.size ∧ w = r.word (p - 4) ∧ (Tag.ofWord w).size = 0

theorem survey_total (r : Region) (h4 : 4 ≤ bp) :
    ∃ s, r.survey bp = .ok s ∧ r.Surveyed bp s := by
  -- the distance to the top falls with every block, which has at least eight bytes
  induction hn : r.size + 1 - bp using Nat.strong_induction_on generalizing bp with
  | h n ih =>
    have h8 : (r.entry bp).size % 8 = 0 := Tag.size_ofWord_mod _
    by_cases hle : bp ≤ r.size
    · by_cases hs : (r.entry bp).size = 0
      · refine ⟨_, survey_stop h4 hle hs, ⟨fun e he => absurd he List.not_mem_nil, rfl, ?_⟩⟩
        intro p w hend
        obtain ⟨rfl, rfl⟩ := Ending.epilogue.inj hend
        exact ⟨hle, rfl, hs⟩
      · by_cases hreach : bp + (r.entry bp).size - 4 ≤ r.size
        · obtain ⟨s, hrun, hread⟩ := ih (r.size + 1 - (bp + (r.entry bp).size)) (by omega)
            (show 4 ≤ bp + (r.entry bp).size by omega) rfl
          refine ⟨{ s with entries := r.entry bp :: s.entries }, ?_, ⟨?_, ⟨rfl, hread.abut⟩, ?_⟩⟩
          · rw [survey_step h4 hle hs hreach, hrun]
            rfl
          · intro e he
            rcases List.mem_cons.1 he with rfl | he
            · exact ⟨rfl, by omega, h8⟩
            · exact hread.entries e he
          · exact hread.ending
        · refine ⟨_, survey_long h4 hle hs (by omega),
            ⟨fun e he => absurd he List.not_mem_nil, rfl, ?_⟩⟩
          intro p w hend
          cases hend
    · refine ⟨_, survey_beyond (by omega), ⟨fun e he => absurd he List.not_mem_nil, rfl, ?_⟩⟩
      intro p w hend
      cases hend

theorem survey_eq {bs : List Block} {start : Nat} (habut : Abut start bs r.size) (hs : Sized bs)
    (h4 : 4 ≤ start) (htag : ∀ b ∈ bs, r.Tagged b)
    (hend : Tag.ofWord (r.word (r.size - 4)) = ⟨0, true⟩) :
    r.survey start = .ok ⟨bs.map fun b => r.entry b.bp, .epilogue r.size (r.word (r.size - 4))⟩ := by
  induction bs generalizing start with
  | nil =>
    have hstart : start = r.size := habut
    have hsize : (r.entry start).size = 0 := by rw [size_entry, hstart, hend]
    rw [survey_stop h4 (Nat.le_of_eq hstart) hsize, hstart]
    rfl
  | cons b bs ih =>
    have hbp : b.bp = start := habut.1
    have hb := (hs b (by simp)).1
    have hle := habut.2.le
    have hsize : (r.entry b.bp).size = b.size := by
      rw [size_entry, (htag b (by simp)).header]
      rfl
    have hrest := ih habut.2 (fun c hc => hs c (by simp [hc])) (by simp only [Block.stop]; omega)
      (fun c hc => htag c (by simp [hc]))
    simp only [Block.stop] at hle hrest
    rw [← hbp, survey_step (by omega) (by omega) (by omega) (by omega), hsize, hrest]
    rfl

variable {b : Block} {e : Entry}

theorem Tagged.entry_size (h : r.Tagged b) : (r.entry b.bp).size = b.size := by
  rw [size_entry, h.header]
  rfl

theorem Tagged.entry_block (h : r.Tagged b) : (r.entry b.bp).block = b := by
  rw [block_entry, h.entry_size, h.header]
  rfl

theorem Tagged.entry_same (h : r.Tagged b) : (r.entry b.bp).header = (r.entry b.bp).footer := by
  have hstop : b.bp + (Tag.ofWord (r.word (b.bp - 4))).size = b.stop := by
    rw [h.header]
    rfl
  show r.word (b.bp - 4) = r.word (b.bp + (Tag.ofWord (r.word (b.bp - 4))).size - 8)
  rw [hstop, h.footer]

theorem tagged_of_entry (he : e = r.entry e.bp) (hsame : e.header = e.footer) :
    r.Tagged e.block := by
  have hheader : e.header = r.word (e.bp - 4) := congrArg Entry.header he
  have hfooter : e.footer = r.word (e.bp + e.size - 8) := by
    have := congrArg Entry.footer he
    rwa [entry, ← hheader] at this
  have htag : Tag.ofWord e.header = e.block.tag := by
    rw [Block.tag, Entry.block, Entry.free, Bool.not_not]
    rfl
  refine ⟨?_, ?_⟩
  · rw [← htag, hheader]
    rfl
  · show r.word (e.bp + e.size - 8) = r.word (e.bp - 4)
    rw [← hfooter, ← hheader, hsame]

theorem Tagged.words (h : r.Tagged b) (h4 : 4 ≤ b.bp) (h8 : 8 ≤ b.size) (hstop : b.stop ≤ r.size) :
    ∃ w, r.header b.bp = .ok w ∧ r.footer b.bp = .ok w ∧ Tag.ofWord w = ⟨b.size, b.allocated⟩ := by
  have hheader : r.header b.bp = .ok (r.word (b.bp - 4)) :=
    header_eq h4 (by simp only [Block.stop] at hstop; omega)
  exact ⟨_, hheader, h.readFooter h4 h8 (by omega), h.header⟩

theorem tagged_of_words {w : UInt32} (h8 : 8 ≤ b.size) (hstop : b.stop ≤ r.size)
    (hheader : r.header b.bp = .ok w) (hfooter : r.footer b.bp = .ok w)
    (hw : Tag.ofWord w = ⟨b.size, b.allocated⟩) : r.Tagged b := by
  have htag : r.tagAt b.bp = .ok b.tag := by
    rw [tagAt, hheader]
    exact congrArg Except.ok hw
  obtain ⟨h4, hle⟩ := bounds_of_tagAt htag
  have hword : Tag.ofWord (r.word (b.bp - 4)) = b.tag := by
    rw [tagAt_eq h4 hle] at htag
    exact Except.ok.inj htag
  have hsize : (r.entry b.bp).size = b.size := by
    rw [size_entry, hword]
    rfl
  simp only [Block.stop] at hstop
  rw [header_eq h4 hle] at hheader
  rw [footer_eq h4 hle (by omega) (by omega)] at hfooter
  have hsame : (r.entry b.bp).footer = r.word (b.bp - 4) := by
    rw [Except.ok.inj hfooter, Except.ok.inj hheader]
  refine ⟨hword, ?_⟩
  rw [← hsame, entry, hword]
  rfl

theorem Surveyed.guarded {s : Survey} {w : UInt32} (h : r.Surveyed 8 s)
    (hfirst : Tag.ofWord (r.word 4) = ⟨8, true⟩) (hending : s.ending = .epilogue r.size w) :
    ∃ bs, s.entries.map Entry.block = Outline.prologue :: bs ∧ Abut 16 bs r.size := by
  have habut := h.abut
  have hentries := h.entries
  obtain ⟨-, hw, hsize⟩ := h.ending _ _ hending
  rw [hending] at habut
  cases hes : s.entries with
  | nil =>
    -- the pass cannot have ended at once: the first header has size eight
    rw [hes] at habut
    have htop : 8 = r.size := habut
    rw [hw, ← htop, hfirst] at hsize
    cases hsize
  | cons e es =>
    rw [hes] at habut hentries
    have hbp : e.bp = 8 := habut.1
    have he := (hentries e (by simp)).1
    rw [hbp] at he
    have hblock : e.block = Outline.prologue := by
      have hesize : e.size = 8 := by rw [he, size_entry, hfirst]
      have hfree : e.free = false := by
        rw [he]
        show (!(Tag.ofWord (r.word 4)).allocated) = false
        rw [hfirst]
        rfl
      rw [Entry.block, hbp, hesize, hfree]
      rfl
    refine ⟨es.map Entry.block, ?_, ?_⟩
    · rw [List.map_cons, hblock]
    · have hrest := habut.2
      rwa [hblock] at hrest

end Region

structure Entry.Good (base : Nat) (e : Entry) : Prop where
  aligned : (base + e.bp) % addressLimit % 8 = 0
  same : e.header = e.footer
  size : e.bp ≠ 8 → 16 ≤ e.size ∧ e.size % 8 = 0

theorem entry_faults_eq_nil {base : Nat} {afterFree : Bool} {e : Entry} :
    e.faults base afterFree = [] ↔ e.Good base ∧ (afterFree = true → e.free = false) := by
  have hgood : e.Good base ↔ (base + e.bp) % addressLimit % 8 = 0 ∧ e.header = e.footer ∧
      (e.bp ≠ 8 → 16 ≤ e.size ∧ e.size % 8 = 0) :=
    ⟨fun h => ⟨h.aligned, h.same, h.size⟩, fun h => ⟨h.1, h.2.1, h.2.2⟩⟩
  have hsize : ¬ (e.bp ≠ 8 ∧ (e.size < 16 ∨ e.size % 8 ≠ 0)) ↔
      (e.bp ≠ 8 → 16 ≤ e.size ∧ e.size % 8 = 0) := by omega
  rw [hgood, ← hsize]
  simp only [Entry.faults, List.append_eq_nil_iff, ite_eq_right_iff, List.cons_ne_nil, imp_false,
    Heap.prologue, minBlock, unitBytes, ne_eq, Decidable.not_not, Bool.and_eq_true, not_and,
    Bool.not_eq_true, and_assoc]
  cases e.free <;> cases afterFree <;> simp

theorem entryFaults_eq_nil {base : Nat} {afterFree : Bool} {es : List Entry} :
    Survey.entryFaults base afterFree es = [] ↔ (∀ e ∈ es, e.Good base) ∧
      (afterFree = true → ∀ e ∈ es.head?, e.free = false) ∧ Apart (es.map Entry.block) := by
  induction es generalizing afterFree with
  | nil => simp [Survey.entryFaults, Apart]
  | cons e es ih =>
    have hseam : (∀ b ∈ (es.map Entry.block).head?, e.block.allocated ∨ b.allocated) ↔
        (e.free = true → ∀ d ∈ es.head?, d.free = false) := by
      cases es with
      | nil => simp
      | cons d es =>
        simp only [List.map_cons, List.head?_cons, Option.mem_def, Option.some.injEq,
          forall_eq', Entry.block]
        cases e.free <;> cases d.free <;> simp
    rw [Survey.entryFaults, List.append_eq_nil_iff, entry_faults_eq_nil, ih, List.map_cons,
      apart_cons, hseam]
    simp only [List.mem_cons, forall_eq_or_imp, List.head?_cons, Option.mem_def, Option.some.injEq,
      forall_eq']
    constructor
    · rintro ⟨⟨hgood, hfree⟩, hrest, hnext, hap⟩
      exact ⟨⟨hgood, hrest⟩, hfree, hnext, hap⟩
    · rintro ⟨⟨hgood, hrest⟩, hfree, hnext, hap⟩
      exact ⟨⟨hgood, hfree⟩, hrest, hnext, hap⟩

theorem Region.Tagged.entry_faults {r : Region} {b : Block} {base : Nat} {afterFree : Bool}
    (h : r.Tagged b) (hbase : base % 8 = 0) (hbp : b.bp % 8 = 0) (hmod : b.size % 8 = 0)
    (hfree : afterFree = true → b.allocated = true) : (r.entry b.bp).faults base afterFree =
      if b.bp ≠ 8 ∧ b.size < 16 then [.badSize b.bp b.size] else [] := by
  have hsame := h.entry_same
  have hsize := h.entry_size
  have haligned : (base + b.bp) % addressLimit % 8 = 0 := by
    simp only [addressLimit]
    omega
  have hseam : ((r.entry b.bp).free && afterFree) = false := by
    have hblock := congrArg Block.allocated h.entry_block
    cases afterFree with
    | false => rw [Bool.and_false]
    | true => simpa [Entry.block, hfree rfl] using hblock
  have hentry : (r.entry b.bp).bp = b.bp := rfl
  simp only [Entry.faults, hentry, haligned, hsame, hsize, hseam, hmod, Heap.prologue, minBlock,
    unitBytes, ne_eq, not_true_eq_false, if_false, or_false, Bool.false_eq_true, List.nil_append,
    List.append_nil]

theorem entryFaults_eq {r : Region} {base : Nat} {afterFree : Bool} {bs : List Block}
    (htag : ∀ b ∈ bs, r.Tagged b) (hbase : base % 8 = 0) (hbp : ∀ b ∈ bs, b.bp % 8 = 0)
    (hmod : ∀ b ∈ bs, b.size % 8 = 0) (hfree : afterFree = true → ∀ b ∈ bs.head?, b.allocated = true)
    (hap : Apart bs) : Survey.entryFaults base afterFree (bs.map fun b => r.entry b.bp) =
      (bs.filter fun b => b.bp ≠ 8 ∧ b.size < 16).map fun b => .badSize b.bp b.size := by
  induction bs generalizing afterFree with
  | nil => rfl
  | cons b bs ih =>
    obtain ⟨hseam, hrest⟩ := apart_cons.1 hap
    have hblock := congrArg Block.allocated (htag b (by simp)).entry_block
    have hnext : (r.entry b.bp).free = true → ∀ c ∈ bs.head?, c.allocated = true := by
      intro hf c hc
      simpa [← hblock, Entry.block, hf] using hseam c hc
    rw [List.map_cons, Survey.entryFaults,
      (htag b (by simp)).entry_faults hbase (hbp b (by simp)) (hmod b (by simp))
        (fun ha => hfree ha b (by simp)),
      ih (fun c hc => htag c (by simp [hc])) (fun c hc => hbp c (by simp [hc]))
        (fun c hc => hmod c (by simp [hc])) hnext hrest, List.filter_cons]
    by_cases hsmall : b.bp ≠ 8 ∧ b.size < 16
    · rw [if_pos hsmall, if_pos (by simpa using hsmall)]
      rfl
    · rw [if_neg hsmall, if_neg (by simpa using hsmall)]
      rfl

theorem endFaults_eq_nil {s : Survey} {top cursor : Nat} :
    s.endFaults top cursor = [] ↔ ∃ w, s.ending = .epilogue top w ∧
      (Tag.ofWord w).allocated = true ∧ (cursor = top ∨ ∃ e ∈ s.entries, e.bp = cursor) := by
  cases hend : s.ending with
  | outOfBounds bp => simp [Survey.endFaults, hend]
  | epilogue bp w =>
    have hany : s.entries.any (·.bp == cursor) = true ↔ ∃ e ∈ s.entries, e.bp = cursor := by
      simp
    simp only [Survey.endFaults, hend, List.append_eq_nil_iff, ite_eq_left_iff, List.cons_ne_nil,
      imp_false, Decidable.not_not, Bool.and_eq_true, beq_iff_eq, Bool.or_eq_true,
      decide_eq_true_eq, hany, Ending.epilogue.injEq]
    constructor
    · rintro ⟨⟨halloc, rfl⟩, hcursor⟩
      exact ⟨w, ⟨rfl, rfl⟩, halloc, hcursor⟩
    · rintro ⟨w', ⟨rfl, rfl⟩, halloc, hcursor⟩
      exact ⟨⟨halloc, rfl⟩, hcursor⟩

namespace Heap

variable {h : Heap} {o : Outline}

theorem faults_eq_nil {s : Survey} (hsurvey : h.survey = .ok s) : h.faults = .ok [] ↔
    h.region.tagAt 8 = .ok ⟨8, true⟩ ∧ (∀ e ∈ s.entries, e.Good h.arena.base) ∧
      Apart (s.entries.map Entry.block) ∧ ∃ w, s.ending = .epilogue h.size w ∧
        (Tag.ofWord w).allocated = true ∧
          (h.cursor = h.size ∨ ∃ e ∈ s.entries, e.bp = h.cursor) := by
  have hentries : Survey.entryFaults h.arena.base false s.entries = [] ↔
      (∀ e ∈ s.entries, e.Good h.arena.base) ∧ Apart (s.entries.map Entry.block) := by
    simp [entryFaults_eq_nil]
  cases htag : h.region.tagAt 8 with
  | error t => simp [Heap.faults, htag, bind, Except.bind]
  | ok first =>
    simp only [Heap.faults, htag, hsurvey, bind, Except.bind, pure, Except.pure, Except.ok.injEq,
      List.append_eq_nil_iff, ite_eq_left_iff, List.cons_ne_nil, imp_false, Decidable.not_not,
      hentries, endFaults_eq_nil, and_assoc]

theorem faults_total (h8 : 8 ≤ h.size) : ∃ fs, h.faults = .ok fs := by
  obtain ⟨s, hsurvey, -⟩ := h.region.survey_total (show 4 ≤ 8 by decide)
  have hrun : h.survey = .ok s := hsurvey
  have hfirst := Region.tagAt_eq (r := h.region) (show 4 ≤ 8 by decide) h8
  simp only [Heap.faults, hrun, hfirst, bind, Except.bind, pure, Except.pure]
  exact ⟨_, rfl⟩

theorem survey_of_depicts (hd : h.Depicts o) (hl : o.Laid) :
    ∃ w, h.survey = .ok ⟨o.guarded.map fun b => h.region.entry b.bp, .epilogue h.size w⟩ ∧
      (Tag.ofWord w).allocated = true := by
  have hrsize := hd.region.size
  have hepilogue : Tag.ofWord (h.region.word (h.region.size - 4)) = ⟨0, true⟩ := by
    rw [hrsize, hd.region.epilogue]
  refine ⟨h.region.word (h.region.size - 4), ?_, by rw [hepilogue]⟩
  exact Region.survey_eq (r := h.region) (hrsize ▸ hl.guarded_abut) hl.guarded_sized (by decide)
    hd.region.tagged hepilogue

theorem faults_of_depicts (hd : h.Depicts o) (hv : o.Valid) (hbase : h.arena.base % 8 = 0) :
    h.faults = .ok ((o.blocks.filter (·.size < 16)).map fun b => .badSize b.bp b.size) := by
  have hl := hv.toLaid
  have htags := hd.region.tagged
  obtain ⟨w, hsurvey, halloc⟩ := survey_of_depicts hd hl
  have hfirst : h.region.tagAt 8 = .ok ⟨8, true⟩ := by
    apply (htags Outline.prologue (by simp [Outline.guarded])).tagAt (by decide)
    rw [hd.region.size]
    exact Nat.le_trans (by decide) hl.top_ge
  have hstart : false = true → ∀ b ∈ o.guarded.head?, b.allocated = true := by simp
  have hentries := entryFaults_eq htags hbase hl.aligned.1
    (fun b hb => (hl.guarded_sized b hb).2) hstart hv.guarded_apart
  have hsmall : o.guarded.filter (fun b => b.bp ≠ 8 ∧ b.size < 16) =
      o.blocks.filter (·.size < 16) := by
    rw [Outline.guarded, List.filter_cons_of_neg (by decide)]
    apply List.filter_congr
    intro b hb
    have := (hl.bounds hb).1
    simp only [decide_eq_decide]
    omega
  have hend : Survey.endFaults ⟨o.guarded.map fun b => h.region.entry b.bp, .epilogue h.size w⟩
      h.size h.cursor = [] := by
    refine endFaults_eq_nil.2 ⟨w, rfl, halloc, ?_⟩
    rw [hd.cursor, hd.size]
    rcases hl.cursor with hc | hc
    · obtain ⟨b, hb, heq⟩ := List.mem_map.1 hc
      exact .inr ⟨_, List.mem_map_of_mem hb, heq⟩
    · exact .inl hc
  rw [hsmall] at hentries
  simp only [Heap.faults, hfirst, hsurvey, bind, Except.bind, pure, Except.pure, hentries, hend,
    if_true, List.nil_append, List.append_nil]

/-- A heap that depicts a valid outline of full-sized blocks is accepted. -/
theorem faultless_of_depicts (hd : h.Depicts o) (hv : o.Valid) (hr : o.Roomy)
    (hbase : h.arena.base % 8 = 0) : h.faults = .ok [] := by
  have hnone : o.blocks.filter (·.size < 16) = [] := by
    apply List.filter_eq_nil_iff.2
    intro b hb
    simpa using hr b hb
  rw [faults_of_depicts hd hv hbase, hnone, List.map_nil]

/-- What the checker accepts depicts a valid outline of full-sized blocks. -/
theorem depicts_of_faultless (hf : h.faults = .ok []) :
    ∃ o, h.Depicts o ∧ o.Valid ∧ o.Roomy ∧ h.arena.base % 8 = 0 := by
  obtain ⟨s, hsurvey, hread⟩ := h.region.survey_total (show 4 ≤ 8 by decide)
  obtain ⟨htag, hgood, hap, w, hending, halloc, hcursor⟩ := (faults_eq_nil hsurvey).1 hf
  obtain ⟨-, hw, hwsize⟩ := hread.ending _ _ hending
  have hfirst : Tag.ofWord (h.region.word 4) = ⟨8, true⟩ := by
    have hle := (Region.bounds_of_tagAt htag).2
    rw [Region.tagAt_eq (by decide) hle] at htag
    exact Except.ok.inj htag
  obtain ⟨bs, hblocks, habut⟩ := hread.guarded hfirst hending
  -- every block listed stands for an entry, and none of them but the prologue is at eight
  have hentry : ∀ b ∈ Outline.prologue :: bs, ∃ e ∈ s.entries, e.block = b := by
    intro b hb
    rw [← hblocks] at hb
    exact List.mem_map.1 hb
  refine ⟨⟨bs, h.size, h.cursor⟩, ⟨⟨rfl, ?_, ?_⟩, rfl⟩, ⟨⟨habut, ?_, ?_⟩, ?_⟩, ?_, ?_⟩
  · intro b hb
    obtain ⟨e, he, rfl⟩ := hentry b hb
    exact Region.tagged_of_entry (hread.entries e he).1 (hgood e he).same
  · rw [hw] at hwsize halloc
    show Tag.ofWord (h.region.word (h.size - 4)) = _
    rw [← hwsize, ← halloc]
  · intro b hb
    obtain ⟨e, he, rfl⟩ := hentry b (List.mem_cons_of_mem _ hb)
    exact (hread.entries e he).2
  · rcases hcursor with hc | ⟨e, he, hc⟩
    · exact .inr hc
    · left
      have hmem : e.block ∈ Outline.prologue :: bs := hblocks ▸ List.mem_map_of_mem he
      exact hc ▸ List.mem_map_of_mem hmem
  · rw [hblocks] at hap
    exact (apart_cons.1 hap).2
  · intro b hb
    have hlow := (habut.bounds hb).1
    obtain ⟨e, he, rfl⟩ := hentry b (List.mem_cons_of_mem _ hb)
    apply And.left
    apply (hgood e he).size
    intro h8
    have hbp : e.block.bp = e.bp := rfl
    omega
  · obtain ⟨e, he, hblock⟩ := hentry Outline.prologue List.mem_cons_self
    have hbp : e.bp = 8 := congrArg Block.bp hblock
    have haligned := (hgood e he).aligned
    rw [hbp] at haligned
    simp only [addressLimit] at haligned
    omega

end Heap

end BoundaryTag
