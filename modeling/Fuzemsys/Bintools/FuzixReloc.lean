import Fuzemsys.Bintools.Reloc

/-!
# Relocations of a Fuzix binary

The records that the linker writes of them, and the program that appends them to the data as two tables
and adjusts the header.
-/

namespace Fuzemsys.Bintools.FuzixReloc

/-! ## Recording -/

/-- What `record_reloc` is called with. -/
structure Record where
  bigendian : Bool
  high : Bool
  size : Nat
  seg : Seg
  addr : Word

/-- The address of the high byte. -/
def Record.place (r : Record) : Word := if r.size = 2 ∧ r.bigendian = false then r.addr + 1 else r.addr

def others (rs : List Record) : List Nat :=
  (rs.filter fun r => r.seg ≠ ZP ∧ ¬(r.size = 1 ∧ r.high = false)).map fun r => r.place.toNat

/-! ## Merging -/

/-- The header fields that matter here. -/
structure Exec where
  a_text : Word
  a_data : Word
  a_bss : Word
  a_zp : Byte

/-- What is appended to the data, and the address behind it as far as it is counted. -/
structure Appended where
  written : List Byte
  raddr : Word

def Appended.write (o : Appended) (b : Byte) : Appended := { o with written := o.written ++ [b] }

def Appended.count (o : Appended) : Appended := { o with raddr := o.raddr + 1 }

/-- Three bytes at a time. What is left at the end is not a record. -/
def triples : List Byte → List (Byte × Byte × Byte)
  | a :: b :: c :: rest => (a, b, c) :: triples rest
  | _ => []

/-- `while(laddr - addr > 254)`, where `int` may have 16 bits. -/
def zeroPageGap (wide : Bool) (addr : Word) : Nat → Word → Appended → Option (Word × Appended)
  | 0, _, _ => none
  | fuel + 1, laddr, o =>
    if (if wide then (laddr.toNat : Int) - addr.toNat > 254 else (laddr - addr).toNat > 254) then
      zeroPageGap wide addr fuel (laddr + 254) (o.write 0xFF).count
    else some (laddr, o)

/-- `none` when the records are not sorted. -/
def zeroPageTable (wide : Bool) (fuel : Nat) : List (Byte × Byte × Byte) → Word → Appended → Option Appended
  | [], _, o => some (o.write 0)
  | (a, b, c) :: rest, laddr, o =>
    if a ≠ 0 then some (o.write 0)
    else if (b ++ c : Word) < laddr then none
    else
      (zeroPageGap wide (b ++ c) fuel laddr o).bind fun (laddr, o) =>
        zeroPageTable wide fuel rest laddr (o.write (((b ++ c : Word) - laddr).setWidth 8)).count

/-- `while(addr - laddr > 254)`. -/
def gap (addr laddr : Word) (o : Appended) : Word × Appended :=
  if laddr.toNat + 254 < addr.toNat then gap addr (laddr + 254) (o.write 0xFF).count else (laddr, o)
termination_by addr.toNat - laddr.toNat
decreasing_by
  have := addr.isLt
  have hstep : (254 : Word).toNat = 254 := rfl
  rw [BitVec.toNat_add, hstep]
  omega

def mainTable : List (Byte × Byte × Byte) → Word → Appended → Option Appended
  | [], _, o => some (o.write 0).count
  | (a, b, c) :: rest, laddr, o =>
    if a = 0 then mainTable rest laddr o
    else if (b ++ c : Word) < laddr then none
    else
      let (laddr, o) := gap (b ++ c) laddr o
      mainTable rest (b ++ c) (o.write (((b ++ c : Word) - laddr).setWidth 8)).count

/-- `lseek(efd, raddr, SEEK_SET)`. -/
def seekTo (hdr : Exec) : Word := hdr.a_text + hdr.a_data

/-- What is written from there on, and the new header. -/
def reloc (wide : Bool) (fuel : Nat) (hdr : Exec) (relocs : List Byte) : Option (List Byte × Exec) :=
  let o : Appended := ⟨[], seekTo hdr⟩
  (if hdr.a_zp ≠ 0 then zeroPageTable wide fuel (triples relocs) 0 o else some o).bind fun o =>
    (mainTable (triples relocs) 0 o).map fun o =>
      let raddr := o.raddr - (hdr.a_text + hdr.a_data)
      (o.written,
        if raddr ≤ hdr.a_bss then { hdr with a_bss := hdr.a_bss - raddr, a_data := hdr.a_data + raddr }
        else { hdr with a_data := hdr.a_data + raddr, a_bss := 0 })

/-! ## Reading the tables -/

/-- One table from an address on, and what is behind it. -/
def decodeTable : Nat → List Byte → Option (List Nat × List Byte)
  | _, [] => none
  | addr, d :: rest =>
    if d = 0 then some ([], rest)
    else if d = 0xFF then decodeTable (addr + 254) rest
    else (decodeTable (addr + d.toNat) rest).map fun (addrs, rest) => ((addr + d.toNat) :: addrs, rest)

/-- Both tables. Nothing may be left over. -/
def decode (zp : Bool) (bytes : List Byte) : Option (List Nat × List Nat) :=
  (if zp then decodeTable 0 bytes else some ([], bytes)).bind fun (zero, rest) =>
    (decodeTable 0 rest).bind fun (addrs, rest) => if rest = [] then some (zero, addrs) else none

end Fuzemsys.Bintools.FuzixReloc
