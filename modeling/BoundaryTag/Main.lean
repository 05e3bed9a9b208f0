import BoundaryTag.Demo

/-!
# Command line

Runs the guided tour on the terminal. At each pause one byte of standard input is read.
-/

set_option autoImplicit false

namespace BoundaryTag.Demo

def present : Output → IO Unit
  | .line text => IO.println text
  | .problem text => IO.eprintln text
  | .pause => do
    (← IO.getStdout).flush
    discard ((← IO.getStdin).read 1)

end BoundaryTag.Demo

def main : IO UInt32 := do
  let page := BoundaryTag.Arena.pageBytes 4096
  match BoundaryTag.Demo.transcript (BoundaryTag.Arena.placed page) with
  | .error failure =>
    IO.eprintln s!"failed to initialise heap: {failure.message}"
    return 1
  | .ok shown =>
    shown.forM BoundaryTag.Demo.present
    return 0
