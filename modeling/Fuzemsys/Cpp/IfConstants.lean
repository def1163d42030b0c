import Fuzemsys.Cpp.IfMeaning

/-!
# Constants behind `#if`

`strtoul` and the escapes of characters give the values of C where the constants are read right.
-/

namespace Fuzemsys.Cpp

open Fuzemsys.Libs.Strtol (Byte digitOf isDigitBelow valueOf)

section
attribute [local simp] strtoul quotValue isOctal ofChar IntConst.Suffix CharConst.code CharConst.WellFormed
end

/-! ## Integers -/

/-- What `strtoul` makes of the digits. -/
def read (base : Nat) (s : List Byte) : BitVec 32 :=
  BitVec.ofNat 32 (min (valueOf base ((s.takeWhile (isDigitBelow base)).filterMap digitOf)) (2 ^ 32 - 1))

end Fuzemsys.Cpp
