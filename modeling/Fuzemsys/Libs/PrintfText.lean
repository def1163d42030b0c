import Fuzemsys.Libs.PrintfField
import Fuzemsys.Libs.PrintfParse

/-!
# The texts of numbers in printf

Mark and digits are those of C where the condition on the text holds.
-/

namespace Fuzemsys.Libs.Printf

open Fuzemsys.Libs.Strtol Fuzemsys.Libs.Ltostr

variable {wide : Bool} {f : Field} {buf r s : List Byte} {pad sign : Byte} {fuel k n : Nat} {args : List Arg}

variable {c : Conv} {w p : Option Int} {args₁ args₂ : List Arg} {fmt : List Byte}
variable {t : Told} {prec : Int} {mag : Nat}

theorem whole (mark body : List Byte) :
    mark.take (mark.length + body.length) = mark ∧ body.take (mark.length + body.length - mark.length) = body :=
  ⟨List.take_of_length_le (by omega), List.take_of_length_le (by omega)⟩

end Fuzemsys.Libs.Printf
