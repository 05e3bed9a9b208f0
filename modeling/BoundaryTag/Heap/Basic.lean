import BoundaryTag.Arena
import BoundaryTag.Block
import BoundaryTag.Event
import BoundaryTag.LiveBlocks
import BoundaryTag.Settings

/-!
# Heaps

A heap keeps all its bookkeeping in the granted bytes, as tags around the blocks. Four words come
first: padding, the header and footer of an allocated block of size 8 (the prologue, at 8), and the
header of an allocated block of size 0 (the epilogue), which moves to the top as the heap grows.

```text
  0        4          8          12         16
  ┌────────┬──────────┬──────────┬──────────┐
  │  pad   │  8 | a   │  8 | a   │  0 | a   │
  └────────┴──────────┴──────────┴──────────┘
                      ▲ prologue
```

Besides the bytes it holds the cursor where the next search begins and, when checked, the set of live
blocks. Operations run in `HeapM`, whose state adds the journal of events to the heap.
-/

set_option autoImplicit false

namespace BoundaryTag

structure Heap where
  arena : Arena
  settings : Settings
  cursor : Nat
  live : Option LiveBlocks
deriving DecidableEq

namespace Heap

@[simp] abbrev prologue : Nat := 8

def region (h : Heap) : Region := h.arena.granted

def size (h : Heap) : Nat := h.arena.size

def walk (h : Heap) : Walk :=
  match h.region.next prologue with
  | .ok bp => h.region.walk bp
  | .error t => ⟨[], prologue, some t⟩

def blocks (h : Heap) : Except Trap (List Block) := h.walk.complete

def freeBytes (h : Heap) : Except Trap Nat :=
  h.blocks.map fun bs => (bs.filter (!·.allocated)).foldr (·.size + ·) 0

def liveCount? (h : Heap) : Option Nat := h.live.map LiveBlocks.size

end Heap

structure Session where
  heap : Heap
  journal : Array Event
deriving DecidableEq

/-- Operations on a heap. One that fails leaves the changes made before the failure. -/
abbrev HeapM := EStateM Failure Session

instance : MonadLift (Except Trap) HeapM where
  monadLift
    | .ok a => pure a
    | .error t => throw (.trapped t)

namespace HeapM

variable {α : Type}

def read (f : Heap → α) : HeapM α := fun s => .ok (f s.heap) s

def query (f : Heap → Except Trap α) : HeapM α := fun s =>
  match f s.heap with
  | .ok x => .ok x s
  | .error t => .error (.trapped t) s

def look (f : Region → Except Trap α) : HeapM α := query fun h => f h.region

def edit (act : RegionM α) : HeapM α := fun ⟨⟨arena, settings, cursor, live⟩, journal⟩ =>
  match arena.edit act with
  | .ok x arena => .ok x ⟨⟨arena, settings, cursor, live⟩, journal⟩
  | .error t arena => .error (.trapped t) ⟨⟨arena, settings, cursor, live⟩, journal⟩

def grow (count : Nat) : HeapM Nat := fun ⟨⟨arena, settings, cursor, live⟩, journal⟩ =>
  match Arena.grow count arena with
  | .ok x arena => .ok x ⟨⟨arena, settings, cursor, live⟩, journal⟩
  | .error why arena => .error (.refused why) ⟨⟨arena, settings, cursor, live⟩, journal⟩

def moveCursor (bp : Nat) : HeapM Unit := fun ⟨⟨arena, settings, _, live⟩, journal⟩ =>
  .ok () ⟨⟨arena, settings, bp, live⟩, journal⟩

def track (f : LiveBlocks → Except Trap LiveBlocks) : HeapM Unit :=
  fun ⟨⟨arena, settings, cursor, live⟩, journal⟩ =>
    match live with
    | none => .ok () ⟨⟨arena, settings, cursor, none⟩, journal⟩
    | some live =>
      match f live with
      | .ok changed => .ok () ⟨⟨arena, settings, cursor, some changed⟩, journal⟩
      | .error t => .error (.trapped t) ⟨⟨arena, settings, cursor, some live⟩, journal⟩

def requireLive (bp : Nat) (action : String) : HeapM Unit := query fun h =>
  match h.live with
  | none => .ok ()
  | some live => live.require bp action

def record (e : Event) : HeapM Unit := fun ⟨heap, journal⟩ => .ok () ⟨heap, journal.push e⟩

/-- Turns a refusal into a value; traps pass through. -/
def attempt (act : HeapM α) : HeapM (Except Refusal α) := fun s =>
  match act s with
  | .ok x s => .ok (.ok x) s
  | .error (.refused why) s => .ok (.error why) s
  | .error (.trapped t) s => .error (.trapped t) s

end HeapM

end BoundaryTag
