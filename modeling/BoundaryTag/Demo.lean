import BoundaryTag.Heap.Allocation
import BoundaryTag.Heap.Survey

/-!
# A guided tour of a heap

A fixed script over a checked heap of standard size: allocations that split the first chunk, releases
that merge, growth for a large request, and a reallocation that moves the payload. Each step shows the
heap as it stands, and between steps the tour waits for its reader.
-/

set_option autoImplicit false

namespace BoundaryTag.Demo

inductive Output where
  | line (text : String)
  | problem (text : String)
  | pause
deriving DecidableEq

abbrev DemoM := StateT (Array Output) HeapM

def say (text : String) : DemoM Unit := modify (·.push (.line text))

def complain (text : String) : DemoM Unit := modify (·.push (.problem text))

def pause : DemoM Unit := do
  say ""
  say ">>> Press ENTER to continue..."
  modify (·.push .pause)

def headline (text : String) : DemoM Unit := do
  say ""
  say text

def showHeap (label : String) : DemoM Unit := do
  let size ← HeapM.read Heap.size
  let free ← HeapM.query (·.freeBytes)
  say s!"[{label}] heap size = {size} bytes, free = {free} bytes"
  for text in ← HeapM.query (·.listing) do
    say text
  let faults ← inspect
  unless faults.isEmpty do
    let count := faults.length
    let names := ", ".intercalate (faults.map Fault.debugText)
    say s!"[{label}] heap check found {count} fault(s): [{names}]"

def showAllocation (size bp : Nat) : DemoM Unit := do
  let usable ← HeapM.query (·.payloadSize bp)
  let position := hex bp
  say s!"Allocated {size} bytes, offset = {position}, address = BASE+{position}, usable = {usable}"

def quoted (bytes : ByteArray) : String :=
  (String.ofList (bytes.toList.map fun b => Char.ofNat b.toNat)).quote

def script : DemoM Unit := do
  showHeap "start"
  pause
  let some first ← allocate 100 | complain "malloc(100) failed"
  headline "[1] Allocate 100 bytes"
  showAllocation 100 first
  writePayload first 0 (bytesOfWord 0xDEADBEEF)
  showHeap "1"
  pause
  let some second ← allocate 50 | complain "malloc(50) failed"
  headline "[2] Allocate 50 bytes"
  showAllocation 50 second
  writePayload second 0 ⟨Array.replicate 50 0xAB⟩
  showHeap "2"
  pause
  release first
  headline s!"[3] Freed first block at {hex first}"
  showHeap "3"
  pause
  release second
  headline s!"[4] Freed second block at {hex second}"
  showHeap "4"
  pause
  let before ← HeapM.read Heap.size
  let some big ← allocate 65536 | complain "malloc(64 KiB) failed"
  headline "[5] Allocate 64 KiB"
  showAllocation 65536 big
  let after ← HeapM.read Heap.size
  let growth := after - before
  say s!"[5] heap grew by {growth} bytes"
  pause
  writePayload big 0 "tagalloc".toUTF8
  let small ← reallocateOrAbort big 16
  headline "[6] Realloc 64 KiB -> 16 bytes"
  showAllocation 16 small
  let kept ← HeapM.query (·.payload small)
  say s!"[6] first bytes = {quoted (kept.extract 0 8)}"
  showHeap "6"
  headline "[7] End of example. The region is unmapped when the heap is dropped."

def transcript (answer : Except SystemError Nat) : Except Failure (List Output) := do
  let session ← Heap.create { Settings.standard with checked := true } answer
  match script #[] session with
  | .ok (_, shown) _ => return shown.toList
  | .error failure _ => throw failure

end BoundaryTag.Demo
