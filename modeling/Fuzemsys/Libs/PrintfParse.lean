import Fuzemsys.Libs.PrintfSpec

/-!
# How printf reads a conversion

What flags, width and precision leave of a field, and the text that each conversion hands on.
-/

namespace Fuzemsys.Libs.Printf

open Fuzemsys.Libs.Strtol Fuzemsys.Libs.Ltostr

variable {wide : Bool} {f : Field} {buf r s : List Byte} {pad sign : Byte} {fuel k n : Nat} {args : List Arg}

/-! ## The flags -/

/-- The other fields are untouched. -/
structure SameFlags (f g : Field) : Prop where
  sign : g.sign = f.sign
  pad : g.pad = f.pad
  hash : g.hash = f.hash
  lval : g.lval = f.lval

variable {c : Conv} {w p : Option Int} {args₁ args₂ : List Arg} {fmt : List Byte}

/-- The field of a conversion. -/
structure Parsed (wide : Bool) (c : Conv) (w p : Option Int) (f : Field) : Prop where
  ljustf : f.ljustf = (told c w p).left
  sign : f.sign = signOf c.flags
  pad : f.pad = if c.flags.contains 0x30 then 0x30 else 0x20
  width : -1 ≤ f.width ∧ f.width.toNat = (told c w p).width
  preci : f.preci = codePrec c.prec p
  hash : f.hash = c.flags.contains 0x23
  lval : f.lval = (c.long || wide)

/-- Arguments of the type `int` have 16 bits, where they are not of the type `long`. -/
def IntArgs (args : List Arg) : Prop := ∀ v, Arg.int v ∈ args → -2 ^ 31 ≤ v ∧ v < 2 ^ 31

end Fuzemsys.Libs.Printf
