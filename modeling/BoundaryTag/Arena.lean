import BoundaryTag.Region

/-!
# Arenas

An arena is one reserved run of bytes, of which a first part is granted. The top of the granted part
moves up by `Arena.grow` and back to the start by `Arena.reset`; grants are contiguous and never move.

```text
  base                    granted.size                    base + capacity
   │◄────── granted ──────────►│◄──── spare ────►│◄── never touched ──►│
```

Bytes above the top are kept as they were left: first those in `spare`, then, up to the capacity,
bytes that were never granted and are zero.
-/

set_option autoImplicit false

namespace BoundaryTag

structure Arena where
  /-- Address of the first byte. -/
  base : Nat
  granted : Region
  spare : Region
  capacity : Nat
deriving DecidableEq

abbrev ArenaM := EStateM Refusal Arena

namespace Arena

/-- Bytes of a page by the system's answer, which is not positive where it cannot tell. -/
def pageBytes (answer : Int) : Nat := if 0 < answer then answer.toNat else 4096

/-- The answer of a system that gives an address: address zero is no place for a region. -/
def placed (address : Nat) : Except SystemError Nat :=
  if address = 0 then .error .outOfMemory else .ok address

/-- An arena of `capacity` zeros where the system placed them. -/
def reserve (answer : Except SystemError Nat) (capacity : Nat) : Except Refusal Arena :=
  match answer with
  | .ok base => .ok ⟨base, ⟨ByteArray.empty⟩, ⟨ByteArray.empty⟩, capacity⟩
  | .error cause => .error (.reservation cause)

def size (a : Arena) : Nat := a.granted.size

def available (a : Arena) : Nat := a.capacity - a.size

/-- The reserved byte at `pos`, granted or not. -/
def byte (a : Arena) (pos : Nat) : UInt8 :=
  if pos < a.size then a.granted.byte pos else a.spare.byte (pos - a.size)

/-- Grants `count` more bytes and returns where they start, or refuses and changes nothing. -/
def grow (count : Nat) : ArenaM Nat := fun a =>
  if a.available < count then .error (.outOfMemory count a.available) a
  else
    let ⟨base, ⟨granted⟩, ⟨spare⟩, capacity⟩ := a
    let top := granted.size
    let reused := spare.extract 0 count
    let fresh := zeros (count - reused.size)
    .ok top ⟨base, ⟨granted ++ reused ++ fresh⟩, ⟨spare.extract count spare.size⟩, capacity⟩

/-- Takes back all granted bytes and leaves zeros in their place. -/
def reset (a : Arena) : Arena :=
  { a with granted := ⟨ByteArray.empty⟩, spare := ⟨zeros a.size ++ a.spare.bytes⟩ }

def lowest (a : Arena) : Int := a.base

/-- Address of the last granted byte; one below the first while nothing is granted. -/
def highest (a : Arena) : Int := a.base + a.size - 1

def pageAligned (page : Nat) (a : Arena) : Bool := a.base % page == 0

def edit {α : Type} (act : RegionM α) : EStateM Trap Arena α :=
  fun ⟨base, granted, spare, capacity⟩ =>
    match act granted with
    | .ok x granted => .ok x ⟨base, granted, spare, capacity⟩
    | .error t granted => .error t ⟨base, granted, spare, capacity⟩

end Arena

end BoundaryTag
