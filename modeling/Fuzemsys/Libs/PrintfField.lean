import Fuzemsys.Libs.PrintfSpec

/-!
# The output loop of printf

The loop in closed form: a field is laid out with its padding on the side it belongs to.
-/

namespace Fuzemsys.Libs.Printf

open Fuzemsys.Libs.Strtol Fuzemsys.Libs.Ltostr

variable {wide : Bool} {f : Field} {buf r s : List Byte} {pad sign : Byte} {fuel k n : Nat} {args : List Arg}

/-! ## The output loop -/

/-- The characters that are left to print. -/
def chars (sign : Byte) (buf : List Byte) : List Byte := if sign ≠ 0 then sign :: buf else buf

end Fuzemsys.Libs.Printf
