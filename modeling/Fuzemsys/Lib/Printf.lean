import Mathlib.Init

/-!
# Numbers in messages

The conversions of `printf` for unsigned numbers in base 16.
-/

namespace Fuzemsys.Lib

/-- `%.2x` with the width 2, and the like. -/
def hex (width n : Nat) : String :=
  let digits := Nat.toDigits 16 n
  String.ofList (List.replicate (width - digits.length) '0' ++ digits)

/-- `%02X` with the width 2, and the like. -/
def hexUpper (width n : Nat) : String := (hex width n).toUpper

end Fuzemsys.Lib
