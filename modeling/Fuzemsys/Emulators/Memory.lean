import Mathlib.Data.BitVec
import Mathlib.Logic.Function.Basic

/-!
# The emulated memory

Both emulators have one `ram` of 65536 bytes. The 6809 emulator acts on stores to
four special locations instead of storing. The system call handler reaches the
memory through a few shim functions, one set for each CPU.
-/

namespace Fuzemsys.Emulators

inductive Cpu where
  | cpu6809
  | cpuZ80
  deriving DecidableEq, Repr

/-- Why the emulator stops: it exits, or it would corrupt its own host memory. -/
inductive Stop where
  | exit (status : Nat)
  /-- The message is printed, and the exit status is 1. -/
  | rejected (msg : String)
  | fault
  deriving DecidableEq, Repr

/-- What a store to a special location prints. -/
inductive Printed where
  | char (val : BitVec 8)
  | decimal (x : Int)
  deriving DecidableEq, Repr

structure Mem where
  ram : BitVec 16 → BitVec 8
  fefcval : BitVec 8
  printed : List Printed

/-! ## Bytes of a 16-bit word -/

/-- `(hi << 8) | lo`, an int in C. -/
def hiLo (hi lo : BitVec 8) : BitVec 32 := hi.setWidth 32 <<< 8 ||| lo.setWidth 32

theorem hiLo_toNat (hi lo : BitVec 8) : (hiLo hi lo).toNat = hi.toNat * 256 + lo.toNat := by
  have hhi := hi.isLt
  have hlo := lo.isLt
  have hor : hi.toNat <<< 8 ||| lo.toNat = hi.toNat <<< 8 + lo.toNat :=
    (Nat.shiftLeft_add_eq_or_of_lt hlo _).symm
  simp only [hiLo, BitVec.toNat_or, BitVec.toNat_shiftLeft, BitVec.toNat_setWidth]
  rw [Nat.mod_eq_of_lt (by omega : hi.toNat < 2 ^ 32), Nat.mod_eq_of_lt (by omega : lo.toNat < 2 ^ 32),
    Nat.mod_eq_of_lt (by rw [Nat.shiftLeft_eq]; omega), hor, Nat.shiftLeft_eq]

theorem hiLo_lt (hi lo : BitVec 8) : (hiLo hi lo).toNat < 65536 := by
  have hhi := hi.isLt
  have hlo := lo.isLt
  rw [hiLo_toNat]
  omega

/-! ## The 6809 memory -/

def e6809Read8 (m : Mem) (addr : BitVec 32) : BitVec 8 := m.ram (addr.setWidth 16)

/-- Writes to certain addresses act like system calls. -/
def e6809Write8 (m : Mem) (addr : BitVec 32) (val : BitVec 8) : Except Stop Mem :=
  if addr = 0xFEFF then .error (.exit (if val = 0 then 0 else 1))
  else if addr = 0xFEFE then .ok { m with printed := m.printed ++ [.char val] }
  else if addr = 0xFEFD then
    -- Make the value signed
    let x : Int := (hiLo m.fefcval val).toNat
    .ok { m with printed := m.printed ++ [.decimal (if x > 0x8000 then x - 0x10000 else x)] }
  else if addr = 0xFEFC then .ok { m with fefcval := val }
  else .ok { m with ram := Function.update m.ram (addr.setWidth 16) val }

/-! ## The Z80 memory -/

def memRead (m : Mem) (addr : BitVec 16) : BitVec 8 := m.ram addr

def memWrite (m : Mem) (addr : BitVec 16) (val : BitVec 8) : Mem :=
  { m with ram := Function.update m.ram addr val }

/-! ## The shims of the system call handler -/

/-- The two bytes at an address, as the CPU orders them. -/
def wordAt (cpu : Cpu) (m : Mem) (addr : BitVec 16) : BitVec 32 :=
  match cpu with
  | .cpu6809 => hiLo (e6809Read8 m (addr.setWidth 32)) (e6809Read8 m (addr.setWidth 32 + 1))
  | .cpuZ80 => hiLo (memRead m (addr + 1)) (memRead m addr)

/-- Unsigned 16-bit integer argument. -/
def uiarg (cpu : Cpu) (m : Mem) (getSp : BitVec 16) (off : BitVec 16) : BitVec 32 :=
  wordAt cpu m (getSp + 2 + off)

/-- Signed 16-bit integer argument. The comparison is the source's: 0x8000 stays positive. -/
def siarg (cpu : Cpu) (m : Mem) (getSp : BitVec 16) (off : BitVec 16) : Int :=
  let val : Int := (wordAt cpu m (getSp + 2 + off)).toNat
  if val > 0x8000 then val - 0x10000 else val

/-- Get 16-bit value in memory at the given location. -/
def getui (cpu : Cpu) (m : Mem) (addr : BitVec 16) : BitVec 16 := (wordAt cpu m addr).setWidth 16

/-- Put 16-bit value in memory at the given location. -/
def putui (cpu : Cpu) (m : Mem) (addr val : BitVec 16) : Except Stop Mem :=
  match cpu with
  | .cpu6809 => do
    let m ← e6809Write8 m (addr.setWidth 32) ((val >>> 8).setWidth 8)
    e6809Write8 m ((addr + 1).setWidth 32) ((val &&& 0xff).setWidth 8)
  | .cpuZ80 =>
    .ok (memWrite (memWrite m addr ((val &&& 0xff).setWidth 8)) (addr + 1) ((val >>> 8).setWidth 8))

theorem wordAt_lt (cpu : Cpu) (m : Mem) (addr : BitVec 16) : (wordAt cpu m addr).toNat < 65536 := by
  cases cpu <;> exact hiLo_lt _ _

theorem uiarg_toNat (cpu : Cpu) (m : Mem) (sp off : BitVec 16) :
    (uiarg cpu m sp off).toNat = (getui cpu m (sp + 2 + off)).toNat := by
  have h := wordAt_lt cpu m (sp + 2 + off)
  simp only [uiarg, getui, BitVec.toNat_setWidth]
  omega

/-- `siarg` is the signed argument up to the sign of 0x8000, so it is exact modulo 2^16. -/
theorem siarg_emod (cpu : Cpu) (m : Mem) (sp off : BitVec 16) :
    siarg cpu m sp off % 65536 = (getui cpu m (sp + 2 + off)).toInt % 65536 := by
  have h := wordAt_lt cpu m (sp + 2 + off)
  have hget : (getui cpu m (sp + 2 + off)).toNat = (wordAt cpu m (sp + 2 + off)).toNat := by
    simp only [getui, BitVec.toNat_setWidth]
    omega
  rw [BitVec.toInt_eq_toNat_bmod, hget]
  simp only [siarg, Int.bmod_def]
  split <;> omega

end Fuzemsys.Emulators
