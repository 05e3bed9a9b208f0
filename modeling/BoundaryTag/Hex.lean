/-!
# Hexadecimal text

Positions and tag words are shown in lower-case hexadecimal with the lead `0x` and no padding.
-/

set_option autoImplicit false

namespace BoundaryTag

def hex (n : Nat) : String := "0x" ++ String.ofList (Nat.toDigits 16 n)

end BoundaryTag
