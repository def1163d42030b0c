import Mathlib.Data.BitVec
import Mathlib.Data.List.Basic

/-!
# Object files

The constants and records of `obj.h` that the linker and the assembler share.
-/

namespace Fuzemsys.Bintools

abbrev Byte := BitVec 8
abbrev Word := BitVec 16

abbrev OSEG : Nat := 14

abbrev Seg := Fin OSEG

def ABSOLUTE : Seg := 0
def CODE : Seg := 1
def DATA : Seg := 2
def BSS : Seg := 3
def ZP : Seg := 4
def DISCARD : Seg := 5
def COMMON : Seg := 6
def LITERAL : Seg := 7
def COMMONDATA : Seg := 8
def BUFFERS : Seg := 9

/-- A segment as the low bits of a type byte. -/
def segByte (s : Seg) : Byte := BitVec.ofNat 8 s.val

/-! ## Symbol entries -/

def NAMELEN : Nat := 16

abbrev Name := List Char

/-- What `strncpy` and `strncmp` see of a name. -/
def cutName (id : String) : Name := id.toList.take NAMELEN

def S_UNKNOWN : Byte := 0x80
def S_PUBLIC : Byte := 0x40
def S_SEGMENT : Byte := 0x0F
def S_ANY : Byte := 0x0F
def UNKNOWN : Byte := 15

/-- One entry of the symbol area of an object file. -/
structure SymEntry where
  type : Byte
  name : Name
  value : Word
  deriving DecidableEq, Repr

/-! ## Headers -/

/-- The header fields that the linker reads. -/
structure ObjHdr where
  o_arch : Byte
  o_flags : Byte
  o_cpuflags : Word
  o_size : Seg → Word

end Fuzemsys.Bintools
