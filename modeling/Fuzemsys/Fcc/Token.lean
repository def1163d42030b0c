import Mathlib.Data.BitVec

/-!
# Tokens

The numbers of the tokens that the passes of the C compiler share, and the widths
of the machine the compiler itself runs on.
-/

namespace Fuzemsys.Fcc

abbrev Byte := BitVec 8

/-- The machine that runs the compiler: how wide `unsigned` and `unsigned long` are. -/
structure Host where
  intBits : Nat
  longBits : Nat
  int_wide : 16 ≤ intBits
  long_wide : 32 ≤ longBits

/-- Linux. -/
def Host.linux : Host := ⟨32, 64, by decide, by decide⟩

/-- Fuzix on a 6809 or a Z80. -/
def Host.fuzix : Host := ⟨16, 32, by decide, by decide⟩

/-! ## Token numbers -/

abbrev Token := BitVec 16

def T_EOF : Token := 0x7F00
def T_INVALID : Token := 0x7F01
def T_LPAREN : Token := 0x28
def T_SEMICOLON : Token := 0x3B
def T_INTVAL : Token := 0x1100
def T_UINTVAL : Token := 0x1101
def T_LONGVAL : Token := 0x1102
def T_ULONGVAL : Token := 0x1103
def T_FLOATVAL : Token := 0x1104
def T_STRING : Token := 0x1105
def T_STRING_END : Token := 0x1106
def T_LINE : Token := 0x3FFF

/-- These are followed by a 4 byte little endian value. -/
def isNumeric (t : Token) : Bool :=
  t = T_INTVAL || t = T_LONGVAL || t = T_UINTVAL || t = T_ULONGVAL || t = T_FLOATVAL

end Fuzemsys.Fcc
