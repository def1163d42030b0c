import Fuzemsys.Bintools.Obj

/-!
# Relocation records

The bytes that the assembler mixes into a segment's stream, and the linker reads back.
-/

namespace Fuzemsys.Bintools

/-- The byte that introduces a record. -/
def REL_ESC : Byte := 0xDA

def REL_SIMPLE : Byte := 0x80
def REL_TYPE : Byte := 0x0F
def REL_SYMBOL : Byte := 0x01
def REL_PCREL : Byte := 0x02

def REL_REL : Byte := 0x00
def REL_EOF : Byte := 0x10
def REL_OVERFLOW : Byte := 0x20
def REL_HIGH : Byte := 0x30
def REL_ORG : Byte := 0x40
def REL_PCR : Byte := 0x70

def S_SIZE : Byte := 0x30

/-- The low and the high byte of a word. -/
def lowByte (w : Word) : Byte := w.setWidth 8
def highByte (w : Word) : Byte := (w >>> 8).setWidth 8

def OF_BIGENDIAN : Byte := 1
def OF_WORDMACHINE : Byte := 2

end Fuzemsys.Bintools
