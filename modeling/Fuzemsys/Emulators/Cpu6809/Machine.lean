import Mathlib.Logic.Function.Basic
import Fuzemsys.Lib.Printf
import Fuzemsys.Emulators.Memory

/-!
# The 6809 machine

The registers, the flags and the memory access of the 6809 interpreter. Every
register but the program counter is an `unsigned` of 32 bits that is never
normalised: an 8-bit register means its low 8 bits, a 16-bit one its low 16.
-/

namespace Fuzemsys.Emulators.Cpu6809

open Fuzemsys.Emulators

/-! ## Registers and flags -/

inductive Reg8 where
  | a
  | b
  | dp
  | cc
  deriving DecidableEq, Repr

inductive Reg16 where
  | x
  | y
  | u
  | s
  deriving DecidableEq, Repr

inductive Flag where
  | E
  | F
  | H
  | I
  | N
  | Z
  | V
  | C
  deriving DecidableEq, Repr

def Flag.val : Flag → BitVec 32
  | .E => 0x80
  | .F => 0x40
  | .H => 0x20
  | .I => 0x10
  | .N => 0x08
  | .Z => 0x04
  | .V => 0x02
  | .C => 0x01

/-- Whether interrupts should be handled (sync/cwai). -/
inductive IrqStatus where
  | normal
  | sync
  | cwai
  deriving DecidableEq, Repr

/-! ## Breakpoints of the monitor -/

inductive BrkType where
  | empty
  | write
  | inst
  deriving DecidableEq, Repr

structure Brkpoint where
  addr : BitVec 32
  brktype : BrkType
  deriving DecidableEq, Repr

structure Brkpoints where
  brkpointlist : List Brkpoint
  ignoredAddr : Int
  deriving DecidableEq, Repr

/-- Is there a breakpoint of the given type? The ignored address is forgotten after one call. -/
def isBreakpoint (l : Brkpoints) (addr : BitVec 16) (type : BrkType) : Bool × Brkpoints :=
  if (addr.toNat : Int) = l.ignoredAddr then (false, { l with ignoredAddr := -1 })
  else (l.brkpointlist.any fun p => p.brktype = type ∧ p.addr = addr.setWidth 32, l)

/-! ## The machine state -/

/-- What the interpreter does to its surroundings, in order. -/
inductive Access where
  | read (addr : BitVec 32) (val : BitVec 8)
  | write (addr : BitVec 32) (val : BitVec 8)
  | syscall (op : BitVec 32)
  deriving DecidableEq, Repr

/-- `H` is the state of the host: its files, its processes and the user at the monitor. -/
structure Machine (H : Type) where
  reg8 : Reg8 → BitVec 32
  reg16 : Reg16 → BitVec 32
  regPc : BitVec 16
  irqStatus : IrqStatus
  writeBrkpt : Bool
  /-- The local counter of `e6809_sstep`. -/
  cycles : BitVec 32
  mem : Mem
  brkpoints : Brkpoints
  host : H
  /-- The accesses so far, the last one first. -/
  accesses : List Access
  /-- How many bytes were read through the program counter. -/
  fetched : Nat

/-- The registers as the rest of the emulator sees them. -/
structure Regs where
  x : BitVec 16
  y : BitVec 16
  u : BitVec 16
  s : BitVec 16
  pc : BitVec 16
  a : BitVec 8
  b : BitVec 8
  dp : BitVec 8
  cc : BitVec 8
  deriving DecidableEq, Repr

/-- A step may stop the emulator. The state it stops in is kept. -/
abbrev M (H : Type) := EStateM Stop (Machine H)

variable {H : Type}

def e6809GetRegs (m : Machine H) : Regs where
  x := (m.reg16 .x).setWidth 16
  y := (m.reg16 .y).setWidth 16
  u := (m.reg16 .u).setWidth 16
  s := (m.reg16 .s).setWidth 16
  pc := m.regPc
  a := (m.reg8 .a).setWidth 8
  b := (m.reg8 .b).setWidth 8
  dp := (m.reg8 .dp).setWidth 8
  cc := (m.reg8 .cc).setWidth 8

def get8 (r : Reg8) : M H (BitVec 32) := fun m => .ok (m.reg8 r) m

def get16 (r : Reg16) : M H (BitVec 32) := fun m => .ok (m.reg16 r) m

def getPc : M H (BitVec 16) := fun m => .ok m.regPc m

def set8 (r : Reg8) (val : BitVec 32) : M H Unit :=
  fun m => .ok () { m with reg8 := Function.update m.reg8 r val }

def set16 (r : Reg16) (val : BitVec 32) : M H Unit :=
  fun m => .ok () { m with reg16 := Function.update m.reg16 r val }

/-- The program counter is a `uint16_t`. -/
def setPc (val : BitVec 32) : M H Unit := fun m => .ok () { m with regPc := val.setWidth 16 }

def addCycles (n : BitVec 32) : M H Unit := fun m => .ok () { m with cycles := m.cycles + n }

def setIrqStatus (st : IrqStatus) : M H Unit := fun m => .ok () { m with irqStatus := st }

/-- Obtain a particular condition code. Returns 0 or 1. -/
def getCc (flag : Flag) : M H (BitVec 32) := do
  let cc ← get8 .cc
  return (cc / flag.val) &&& 1

/-- Set a particular condition code to either 0 or 1. -/
def setCc (flag : Flag) (value : BitVec 32) : M H Unit := do
  let cc ← get8 .cc
  set8 .cc ((cc &&& ~~~flag.val) ||| value * flag.val)

def getRegD : M H (BitVec 32) := do
  let a ← get8 .a
  let b ← get8 .b
  return (a <<< 8) ||| (b &&& 0xff)

def setRegD (value : BitVec 32) : M H Unit := do
  set8 .a (value >>> 8)
  set8 .b value

/-! ## Tests for the condition codes -/

/-- Test carry. -/
def testC (i0 i1 r sub : BitVec 32) : BitVec 32 :=
  let flag := (i0 ||| i1) &&& ~~~r
  let flag := flag ||| (i0 &&& i1)
  let flag := (flag >>> 7) &&& 1
  flag ^^^ sub

/-- Test negative. -/
def testN (r : BitVec 32) : BitVec 32 := (r >>> 7) &&& 1

/-- Test for zero in lower 8 bits. -/
def testZ8 (r : BitVec 32) : BitVec 32 :=
  let flag := ~~~r
  let flag := (flag >>> 4) &&& (flag &&& 0xf)
  let flag := (flag >>> 2) &&& (flag &&& 0x3)
  (flag >>> 1) &&& (flag &&& 0x1)

/-- Test for zero in lower 16 bits. -/
def testZ16 (r : BitVec 32) : BitVec 32 :=
  let flag := ~~~r
  let flag := (flag >>> 8) &&& (flag &&& 0xff)
  let flag := (flag >>> 4) &&& (flag &&& 0xf)
  let flag := (flag >>> 2) &&& (flag &&& 0x3)
  (flag >>> 1) &&& (flag &&& 0x1)

/-- Overflow: the input signs are the same, the sign of the result is not. -/
def testV (i0 i1 r : BitVec 32) : BitVec 32 :=
  let flag := ~~~(i0 ^^^ i1)
  let flag := flag &&& (i0 ^^^ r)
  (flag >>> 7) &&& 1

/-- Sign extend an 8-bit quantity into a 16-bit quantity. -/
def signExtend (data : BitVec 32) : BitVec 32 := (~~~(data &&& 0x80) + 1) ||| (data &&& 0xff)

/-! ## Memory -/

def read8 (address : BitVec 32) : M H (BitVec 32) := fun m =>
  let val := e6809Read8 m.mem (address &&& 0xffff)
  .ok (val.setWidth 32) { m with accesses := .read (address &&& 0xffff) val :: m.accesses }

/-- Write a byte, then look for a write breakpoint. Only the lower 8 bits are written. -/
def write8 (address data : BitVec 32) : M H Unit := fun m =>
  let address := address &&& 0xffff
  let m := { m with accesses := .write address (data.setWidth 8) :: m.accesses }
  match e6809Write8 m.mem address (data.setWidth 8) with
  | .error stop => .error stop m
  | .ok mem =>
    let (hit, brkpoints) := isBreakpoint m.brkpoints (address.setWidth 16) .write
    .ok () { m with mem := mem, brkpoints := brkpoints, writeBrkpt := m.writeBrkpt || hit }

def read16 (address : BitVec 32) : M H (BitVec 32) := do
  let datahi ← read8 address
  let datalo ← read8 (address + 1)
  return (datahi <<< 8) ||| datalo

def write16 (address data : BitVec 32) : M H Unit := do
  write8 address (data >>> 8)
  write8 (address + 1) data

def push8 (sp : Reg16) (data : BitVec 32) : M H Unit := do
  set16 sp ((← get16 sp) - 1)
  write8 (← get16 sp) data

def pull8 (sp : Reg16) : M H (BitVec 32) := do
  let data ← read8 (← get16 sp)
  set16 sp ((← get16 sp) + 1)
  return data

def push16 (sp : Reg16) (data : BitVec 32) : M H Unit := do
  push8 sp data
  push8 sp (data >>> 8)

def pull16 (sp : Reg16) : M H (BitVec 32) := do
  let datahi ← pull8 sp
  let datalo ← pull8 sp
  return (datahi <<< 8) ||| datalo

/-- `reg_pc += n`. -/
def addPc (n : BitVec 32) : M H Unit := do
  setPc ((← getPc).setWidth 32 + n)

/-- Counts bytes read through the program counter. -/
def countFetched (n : Nat) : M H Unit := fun m => .ok () { m with fetched := m.fetched + n }

/-- Read a byte from the address pointed to by the pc. -/
def pcRead8 : M H (BitVec 32) := do
  let data ← read8 ((← getPc).setWidth 32)
  addPc 1
  countFetched 1
  return data

/-- Read a word from the address pointed to by the pc. -/
def pcRead16 : M H (BitVec 32) := do
  let data ← read16 ((← getPc).setWidth 32)
  addPc 2
  countFetched 2
  return data

/-! ## Addressing modes -/

/-- Direct addressing: the upper byte of the address is the direct page register. -/
def eaDirect : M H (BitVec 32) := do
  let dp ← get8 .dp
  let lo ← pcRead8
  return (dp <<< 8) ||| lo

def eaExtended : M H (BitVec 32) := pcRead16

/-- What an indexed post-byte asks for. The flag says whether the address is indirect. -/
inductive IndexMode where
  | posOffset
  | negOffset
  | postInc (indirect : Bool)
  | preDec (indirect : Bool)
  | noOffset (indirect : Bool)
  | accB (indirect : Bool)
  | accA (indirect : Bool)
  | byteR (indirect : Bool)
  | wordR (indirect : Bool)
  | accD (indirect : Bool)
  | bytePc (indirect : Bool)
  | wordPc (indirect : Bool)
  | address
  deriving DecidableEq, Repr

/-- The case labels of the post-byte switch. -/
def postBytes : List (List (BitVec 8) × IndexMode) :=
  [([0x00, 0x01, 0x02, 0x03, 0x04, 0x05, 0x06, 0x07, 0x08, 0x09, 0x0a, 0x0b, 0x0c, 0x0d, 0x0e, 0x0f,
     0x20, 0x21, 0x22, 0x23, 0x24, 0x25, 0x26, 0x27, 0x28, 0x29, 0x2a, 0x2b, 0x2c, 0x2d, 0x2e, 0x2f,
     0x40, 0x41, 0x42, 0x43, 0x44, 0x45, 0x46, 0x47, 0x48, 0x49, 0x4a, 0x4b, 0x4c, 0x4d, 0x4e, 0x4f,
     0x60, 0x61, 0x62, 0x63, 0x64, 0x65, 0x66, 0x67, 0x68, 0x69, 0x6a, 0x6b, 0x6c, 0x6d, 0x6e, 0x6f],
    .posOffset),
   ([0x10, 0x11, 0x12, 0x13, 0x14, 0x15, 0x16, 0x17, 0x18, 0x19, 0x1a, 0x1b, 0x1c, 0x1d, 0x1e, 0x1f,
     0x30, 0x31, 0x32, 0x33, 0x34, 0x35, 0x36, 0x37, 0x38, 0x39, 0x3a, 0x3b, 0x3c, 0x3d, 0x3e, 0x3f,
     0x50, 0x51, 0x52, 0x53, 0x54, 0x55, 0x56, 0x57, 0x58, 0x59, 0x5a, 0x5b, 0x5c, 0x5d, 0x5e, 0x5f,
     0x70, 0x71, 0x72, 0x73, 0x74, 0x75, 0x76, 0x77, 0x78, 0x79, 0x7a, 0x7b, 0x7c, 0x7d, 0x7e, 0x7f],
    .negOffset),
   ([0x80, 0x81, 0xa0, 0xa1, 0xc0, 0xc1, 0xe0, 0xe1], .postInc false),
   ([0x90, 0x91, 0xb0, 0xb1, 0xd0, 0xd1, 0xf0, 0xf1], .postInc true),
   ([0x82, 0x83, 0xa2, 0xa3, 0xc2, 0xc3, 0xe2, 0xe3], .preDec false),
   ([0x92, 0x93, 0xb2, 0xb3, 0xd2, 0xd3, 0xf2, 0xf3], .preDec true),
   ([0x84, 0xa4, 0xc4, 0xe4], .noOffset false),
   ([0x94, 0xb4, 0xd4, 0xf4], .noOffset true),
   ([0x85, 0xa5, 0xc5, 0xe5], .accB false),
   ([0x95, 0xb5, 0xd5, 0xf5], .accB true),
   ([0x86, 0xa6, 0xc6, 0xe6], .accA false),
   ([0x96, 0xb6, 0xd6, 0xf6], .accA true),
   ([0x88, 0xa8, 0xc8, 0xe8], .byteR false),
   ([0x98, 0xb8, 0xd8, 0xf8], .byteR true),
   ([0x89, 0xa9, 0xc9, 0xe9], .wordR false),
   ([0x99, 0xb9, 0xd9, 0xf9], .wordR true),
   ([0x8b, 0xab, 0xcb, 0xeb], .accD false),
   ([0x9b, 0xbb, 0xdb, 0xfb], .accD true),
   ([0x8c, 0xac, 0xcc, 0xec], .bytePc false),
   ([0x9c, 0xbc, 0xdc, 0xfc], .bytePc true),
   ([0x8d, 0xad, 0xcd, 0xed], .wordPc false),
   ([0x9d, 0xbd, 0xdd, 0xfd], .wordPc true),
   ([0x9f], .address)]

def indexMode (op : BitVec 8) : Option IndexMode :=
  (postBytes.find? fun entry => entry.1.contains op).map (·.2)

/-- `rptr_xyus[(op >> 5) & 3]`. -/
def rptrXyus (op : BitVec 32) : Reg16 :=
  match ((op >>> 5) &&& 3).toNat with
  | 0 => .x
  | 1 => .y
  | 2 => .u
  | _ => .s

/-- The end of an indexed case: an indirect address is read from memory. -/
def indirectly (indirect : Bool) (ea : BitVec 32) : M H (BitVec 32) :=
  if indirect then read16 ea else return ea

def eaIndexed : M H (BitVec 32) := do
  let op ← pcRead8
  let r := rptrXyus op
  match indexMode (op.setWidth 8) with
  | some .posOffset =>
    let ea := (← get16 r) + (op &&& 0xf)
    addCycles 1
    return ea
  | some .negOffset =>
    let ea := (← get16 r) + (op &&& 0xf) - 0x10
    addCycles 1
    return ea
  | some (.postInc indirect) =>
    let ea ← indirectly indirect (← get16 r)
    set16 r ((← get16 r) + (1 + (op &&& 1)))
    addCycles ((if indirect then 5 else 2) + (op &&& 1))
    return ea
  | some (.preDec indirect) =>
    set16 r ((← get16 r) - (1 + (op &&& 1)))
    let ea ← indirectly indirect (← get16 r)
    addCycles ((if indirect then 5 else 2) + (op &&& 1))
    return ea
  | some (.noOffset indirect) =>
    let ea ← indirectly indirect (← get16 r)
    addCycles (if indirect then 3 else 0)
    return ea
  | some (.accB indirect) =>
    let ea ← indirectly indirect ((← get16 r) + signExtend (← get8 .b))
    addCycles (if indirect then 4 else 1)
    return ea
  | some (.accA indirect) =>
    let ea ← indirectly indirect ((← get16 r) + signExtend (← get8 .a))
    addCycles (if indirect then 4 else 1)
    return ea
  | some (.byteR indirect) =>
    let ea ← indirectly indirect ((← get16 r) + signExtend (← pcRead8))
    addCycles (if indirect then 4 else 1)
    return ea
  | some (.wordR indirect) =>
    let ea ← indirectly indirect ((← get16 r) + (← pcRead16))
    addCycles (if indirect then 7 else 4)
    return ea
  | some (.accD indirect) =>
    let ea ← indirectly indirect ((← get16 r) + (← getRegD))
    addCycles (if indirect then 7 else 4)
    return ea
  | some (.bytePc indirect) =>
    let r := signExtend (← pcRead8)
    let ea ← indirectly indirect ((← getPc).setWidth 32 + r)
    addCycles (if indirect then 4 else 1)
    return ea
  | some (.wordPc indirect) =>
    let r ← pcRead16
    let ea ← indirectly indirect ((← getPc).setWidth 32 + r)
    addCycles (if indirect then 8 else 5)
    return ea
  | some .address =>
    let ea ← read16 (← pcRead16)
    addCycles 5
    return ea
  | none => throw (.rejected "undefined post-byte\n")

end Fuzemsys.Emulators.Cpu6809
