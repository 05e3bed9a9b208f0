import BoundaryTag.Heap.Basic

/-!
# Checking a heap

One pass over the tags from the prologue to the epilogue lists every structural fault and repairs
nothing. The pass checks each position against the top of the heap before it reads there, so it comes
to an end on any bytes.
-/

set_option autoImplicit false

namespace BoundaryTag

structure Entry where
  bp : Nat
  header : UInt32
  footer : UInt32
deriving DecidableEq

/-- Where a pass ends: at a header of size zero, or at a block that reaches past the top. -/
inductive Ending where
  | epilogue (bp : Nat) (header : UInt32)
  | outOfBounds (bp : Nat)
deriving DecidableEq

structure Survey where
  entries : List Entry
  ending : Ending
deriving DecidableEq

def Region.survey (r : Region) (bp : Nat) : Except Trap Survey :=
  if _inside : r.size < bp then .ok ⟨[], .outOfBounds bp⟩
  else do
    let header ← r.header bp
    let size := (Tag.ofWord header).size
    if _nonzero : size = 0 then
      return ⟨[], .epilogue bp header⟩
    else
      let reach ← minus (bp + size) wordBytes
      if r.size < reach then
        return ⟨[], .outOfBounds bp⟩
      else
        let footer ← r.footer bp
        let rest ← r.survey (bp + size)
        return { rest with entries := ⟨bp, header, footer⟩ :: rest.entries }
termination_by r.size + 1 - bp

namespace Entry

def size (e : Entry) : Nat := (Tag.ofWord e.header).size

def free (e : Entry) : Bool := !(Tag.ofWord e.header).allocated

def faults (e : Entry) (base : Nat) (afterFree : Bool) : List Fault :=
  (if (base + e.bp) % addressLimit % unitBytes ≠ 0 then [.misaligned e.bp] else []) ++
  (if e.header ≠ e.footer then [.tagMismatch e.bp e.header e.footer] else []) ++
  (if e.bp ≠ Heap.prologue ∧ (e.size < minBlock ∨ e.size % unitBytes ≠ 0) then
    [.badSize e.bp e.size] else []) ++
  (if e.free && afterFree then [.adjacentFree e.bp] else [])

end Entry

namespace Survey

/-- The faults of a list of neighbouring blocks; `afterFree` tells whether the block before is free. -/
def entryFaults (base : Nat) : Bool → List Entry → List Fault
  | _, [] => []
  | afterFree, e :: es => e.faults base afterFree ++ entryFaults base e.free es

/-- The faults at the end of the pass. Where it did not reach an epilogue nothing is said about the
cursor. -/
def endFaults (s : Survey) (top cursor : Nat) : List Fault :=
  match s.ending with
  | .outOfBounds bp => [.outOfBounds bp]
  | .epilogue bp header =>
    (if (Tag.ofWord header).allocated && bp == top then [] else [.badEpilogue]) ++
    (if cursor = bp || s.entries.any (·.bp == cursor) then [] else [.strayCursor cursor])

end Survey

namespace Heap

def survey (h : Heap) : Except Trap Survey := h.region.survey prologue

def faults (h : Heap) : Except Trap (List Fault) := do
  let first ← h.region.tagAt prologue
  let s ← h.survey
  return (if first = ⟨8, true⟩ then [] else [.badPrologue]) ++
    Survey.entryFaults h.arena.base false s.entries ++ s.endFaults h.size h.cursor

end Heap

def Tag.text (t : Tag) : String := if t.allocated then s!"[{t.size}:a]" else s!"[{t.size}:f]"

def Entry.text (e : Entry) : String :=
  let header := (Tag.ofWord e.header).text
  let footer := (Tag.ofWord e.footer).text
  s!"{hex e.bp}: header: {header} footer: {footer}"

namespace Heap

def listing (h : Heap) : Except Trap (List String) := do
  let s ← h.survey
  let last := match s.ending with
    | .epilogue bp _ => [s!"{hex bp}: EOL"]
    | .outOfBounds _ => []
  return s!"Heap (BASE+{hex prologue}):" :: s.entries.map Entry.text ++ last

end Heap

def inspect : HeapM (List Fault) := do
  let faults ← HeapM.query (·.faults)
  for fault in faults do
    HeapM.record (.faultFound fault)
  return faults

end BoundaryTag
