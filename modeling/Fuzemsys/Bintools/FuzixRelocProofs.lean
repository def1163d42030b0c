import Fuzemsys.Bintools.FuzixReloc
import Fuzemsys.Bintools.Ld.RelocateProofs

/-!
# The tables list the relocations

The bytes of one gap, the main table as a function of its addresses, what decodes to what, and the
count that the zero page table leaves short.
-/

namespace Fuzemsys.Bintools.FuzixReloc

variable {rs : List Record} {wide : Bool} {fuel : Nat} {hdr : Exec} {o o' : Appended} {addr laddr : Word} {l : Nat}
  {addrs : List Nat} {rest r : List Byte}

/-! ## What is written -/

/-- The bytes of a gap. -/
def gapBytes (n : Nat) : List Byte := List.replicate ((n - 1) / 254) 0xFF

/-- The table of some addresses. -/
def table : Nat → List Nat → List Byte
  | _, [] => [0]
  | l, addr :: addrs =>
    gapBytes (addr - l) ++ BitVec.ofNat 8 (addr - l - (addr - l - 1) / 254 * 254) :: table addr addrs

def Appended.append (o : Appended) (bytes : List Byte) : Appended :=
  ⟨o.written ++ bytes, o.raddr + BitVec.ofNat 16 bytes.length⟩

theorem append_nil (o : Appended) : o.append [] = o := by simp [Appended.append]

/-- How far the count is ahead of what is written. -/
def Appended.counted (o : Appended) : Word := o.raddr - BitVec.ofNat 16 o.written.length

end Fuzemsys.Bintools.FuzixReloc
