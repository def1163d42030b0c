import Fuzemsys.Libs.PrintfText

/-!
# Which formats print as C specifies

One conversion, and whole formats by induction on their pieces.
-/

namespace Fuzemsys.Libs.Printf

open Fuzemsys.Libs.Strtol Fuzemsys.Libs.Ltostr

variable {wide : Bool} {f : Field} {buf r s : List Byte} {pad sign : Byte} {fuel k n : Nat} {args : List Arg}

variable {c : Conv} {w p : Option Int} {args₁ args₂ : List Arg} {fmt : List Byte}
variable {t : Told} {prec : Int} {mag : Nat}

/-! ## One conversion -/

/-- The value has the type that the conversion asks for. -/
def Suits (l : Letter) : Value → Prop
  | .number neg _ => (l ≠ .c ∧ l ≠ .s) ∧ (l.signed = false → neg = false)
  | .char _ => l = .c
  | .string _ => l = .s

theorem IntArgs.rest (h : IntArgs args) (hrest : args₁ <:+ args) : IntArgs args₁ :=
  fun v hv => h v (hrest.subset hv)

variable {maxlen cnt : Nat} {out : List Byte}

end Fuzemsys.Libs.Printf
