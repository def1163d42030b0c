import Fuzemsys.Emulators.Cpu6809.Machine

/-!
# The 6809 instructions

The `inst_` functions of the interpreter: what each instruction computes and how
it sets the condition codes.
-/

namespace Fuzemsys.Emulators.Cpu6809

open Fuzemsys.Emulators

variable {H : Type}

/-! ## One operand -/

/-- Essentially (0 - data). -/
def instNeg (data : BitVec 32) : M H (BitVec 32) := do
  let i0 : BitVec 32 := 0
  let i1 := ~~~data
  let r := i0 + i1 + 1
  setCc .H (testC (i0 <<< 4) (i1 <<< 4) (r <<< 4) 0)
  setCc .N (testN r)
  setCc .Z (testZ8 r)
  setCc .V (testV i0 i1 r)
  setCc .C (testC i0 i1 r 1)
  return r

def instCom (data : BitVec 32) : M H (BitVec 32) := do
  let r := ~~~data
  setCc .N (testN r)
  setCc .Z (testZ8 r)
  setCc .V 0
  setCc .C 1
  return r

def instLsr (data : BitVec 32) : M H (BitVec 32) := do
  let r := (data >>> 1) &&& 0x7f
  setCc .N 0
  setCc .Z (testZ8 r)
  setCc .C (data &&& 1)
  return r

def instRor (data : BitVec 32) : M H (BitVec 32) := do
  let c ← getCc .C
  let r := ((data >>> 1) &&& 0x7f) ||| (c <<< 7)
  setCc .N (testN r)
  setCc .Z (testZ8 r)
  setCc .C (data &&& 1)
  return r

def instAsr (data : BitVec 32) : M H (BitVec 32) := do
  let r := ((data >>> 1) &&& 0x7f) ||| (data &&& 0x80)
  setCc .N (testN r)
  setCc .Z (testZ8 r)
  setCc .C (data &&& 1)
  return r

/-- Essentially (data + data). Simple addition. -/
def instAsl (data : BitVec 32) : M H (BitVec 32) := do
  let i0 := data
  let i1 := data
  let r := i0 + i1
  setCc .H (testC (i0 <<< 4) (i1 <<< 4) (r <<< 4) 0)
  setCc .N (testN r)
  setCc .Z (testZ8 r)
  setCc .V (testV i0 i1 r)
  setCc .C (testC i0 i1 r 0)
  return r

/-- Essentially (data + data + carry). -/
def instRol (data : BitVec 32) : M H (BitVec 32) := do
  let i0 := data
  let i1 := data
  let c ← getCc .C
  let r := i0 + i1 + c
  setCc .N (testN r)
  setCc .Z (testZ8 r)
  setCc .V (testV i0 i1 r)
  setCc .C (testC i0 i1 r 0)
  return r

/-- Essentially (data - 1). -/
def instDec (data : BitVec 32) : M H (BitVec 32) := do
  let i0 := data
  let i1 : BitVec 32 := 0xff
  let r := i0 + i1
  setCc .N (testN r)
  setCc .Z (testZ8 r)
  setCc .V (testV i0 i1 r)
  return r

/-- Essentially (data + 1). -/
def instInc (data : BitVec 32) : M H (BitVec 32) := do
  let i0 := data
  let i1 : BitVec 32 := 1
  let r := i0 + i1
  setCc .N (testN r)
  setCc .Z (testZ8 r)
  setCc .V (testV i0 i1 r)
  return r

def instTst8 (data : BitVec 32) : M H Unit := do
  setCc .N (testN data)
  setCc .Z (testZ8 data)
  setCc .V 0

def instTst16 (data : BitVec 32) : M H Unit := do
  setCc .N (testN (data >>> 8))
  setCc .Z (testZ16 data)
  setCc .V 0

def instClr : M H Unit := do
  setCc .N 0
  setCc .Z 1
  setCc .V 0
  setCc .C 0

/-! ## Two operands -/

def instSub8 (data0 data1 : BitVec 32) : M H (BitVec 32) := do
  let i0 := data0
  let i1 := ~~~data1
  let r := i0 + i1 + 1
  setCc .H (testC (i0 <<< 4) (i1 <<< 4) (r <<< 4) 0)
  setCc .N (testN r)
  setCc .Z (testZ8 r)
  setCc .V (testV i0 i1 r)
  setCc .C (testC i0 i1 r 1)
  return r

def instSbc (data0 data1 : BitVec 32) : M H (BitVec 32) := do
  let i0 := data0
  let i1 := ~~~data1
  let c := 1 - (← getCc .C)
  let r := i0 + i1 + c
  setCc .H (testC (i0 <<< 4) (i1 <<< 4) (r <<< 4) 0)
  setCc .N (testN r)
  setCc .Z (testZ8 r)
  setCc .V (testV i0 i1 r)
  setCc .C (testC i0 i1 r 1)
  return r

def instAnd (data0 data1 : BitVec 32) : M H (BitVec 32) := do
  let r := data0 &&& data1
  instTst8 r
  return r

def instEor (data0 data1 : BitVec 32) : M H (BitVec 32) := do
  let r := data0 ^^^ data1
  instTst8 r
  return r

def instAdc (data0 data1 : BitVec 32) : M H (BitVec 32) := do
  let i0 := data0
  let i1 := data1
  let c ← getCc .C
  let r := i0 + i1 + c
  setCc .H (testC (i0 <<< 4) (i1 <<< 4) (r <<< 4) 0)
  setCc .N (testN r)
  setCc .Z (testZ8 r)
  setCc .V (testV i0 i1 r)
  setCc .C (testC i0 i1 r 0)
  return r

def instOr (data0 data1 : BitVec 32) : M H (BitVec 32) := do
  let r := data0 ||| data1
  instTst8 r
  return r

def instAdd8 (data0 data1 : BitVec 32) : M H (BitVec 32) := do
  let i0 := data0
  let i1 := data1
  let r := i0 + i1
  setCc .H (testC (i0 <<< 4) (i1 <<< 4) (r <<< 4) 0)
  setCc .N (testN r)
  setCc .Z (testZ8 r)
  setCc .V (testV i0 i1 r)
  setCc .C (testC i0 i1 r 0)
  return r

def instAdd16 (data0 data1 : BitVec 32) : M H (BitVec 32) := do
  let i0 := data0
  let i1 := data1
  let r := i0 + i1
  setCc .N (testN (r >>> 8))
  setCc .Z (testZ16 r)
  setCc .V (testV (i0 >>> 8) (i1 >>> 8) (r >>> 8))
  setCc .C (testC (i0 >>> 8) (i1 >>> 8) (r >>> 8) 0)
  return r

def instSub16 (data0 data1 : BitVec 32) : M H (BitVec 32) := do
  let i0 := data0
  let i1 := ~~~data1
  let r := i0 + i1 + 1
  setCc .N (testN (r >>> 8))
  setCc .Z (testZ16 r)
  setCc .V (testV (i0 >>> 8) (i1 >>> 8) (r >>> 8))
  setCc .C (testC (i0 >>> 8) (i1 >>> 8) (r >>> 8) 1)
  return r

/-! ## Branches -/

/-- 8-bit offset branch. The mask is all ones when taken, 0 when not taken. -/
def instBra8 (test op : BitVec 32) : M H Unit := do
  let offset ← pcRead8
  let mask := (test ^^^ (op &&& 1)) - 1
  addPc (signExtend offset &&& mask)
  addCycles 3

/-- 16-bit offset branch. -/
def instBra16 (test op : BitVec 32) : M H Unit := do
  let offset ← pcRead16
  let mask := (test ^^^ (op &&& 1)) - 1
  addPc (offset &&& mask)
  addCycles (5 - mask)

/-! ## Pushing and pulling registers -/

/-- One bit of the post-byte of a push or a pull. -/
def whenBit (op bit : BitVec 32) (act : M H Unit) : M H Unit :=
  if op &&& bit ≠ 0 then act else pure ()

/-- `data` is the other stack pointer. -/
def instPsh (op : BitVec 32) (sp : Reg16) (data : BitVec 32) : M H Unit := do
  whenBit op 0x80 do
    push16 sp ((← getPc).setWidth 32)
    addCycles 2
  whenBit op 0x40 do
    push16 sp data
    addCycles 2
  whenBit op 0x20 do
    push16 sp (← get16 .y)
    addCycles 2
  whenBit op 0x10 do
    push16 sp (← get16 .x)
    addCycles 2
  whenBit op 0x08 do
    push8 sp (← get8 .dp)
    addCycles 1
  whenBit op 0x04 do
    push8 sp (← get8 .b)
    addCycles 1
  whenBit op 0x02 do
    push8 sp (← get8 .a)
    addCycles 1
  whenBit op 0x01 do
    push8 sp (← get8 .cc)
    addCycles 1

/-- `osp` is the other stack pointer. -/
def instPul (op : BitVec 32) (sp osp : Reg16) : M H Unit := do
  whenBit op 0x01 do
    set8 .cc (← pull8 sp)
    addCycles 1
  whenBit op 0x02 do
    set8 .a (← pull8 sp)
    addCycles 1
  whenBit op 0x04 do
    set8 .b (← pull8 sp)
    addCycles 1
  whenBit op 0x08 do
    set8 .dp (← pull8 sp)
    addCycles 1
  whenBit op 0x10 do
    set16 .x (← pull16 sp)
    addCycles 2
  whenBit op 0x20 do
    set16 .y (← pull16 sp)
    addCycles 2
  whenBit op 0x40 do
    set16 osp (← pull16 sp)
    addCycles 2
  whenBit op 0x80 do
    setPc (← pull16 sp)
    addCycles 2

/-! ## Exchange and transfer -/

def illegalReg (reg : BitVec 32) : Stop :=
  .rejected ("illegal exgtfr reg " ++ Lib.hex 1 reg.toNat ++ "\n")

def exgtfrRead (reg : BitVec 32) : M H (BitVec 32) :=
  match reg.toNat with
  | 0x0 => getRegD
  | 0x1 => get16 .x
  | 0x2 => get16 .y
  | 0x3 => get16 .u
  | 0x4 => get16 .s
  | 0x5 => do return (← getPc).setWidth 32
  | 0x8 => do return 0xff00 ||| (← get8 .a)
  | 0x9 => do return 0xff00 ||| (← get8 .b)
  | 0xa => do return 0xff00 ||| (← get8 .cc)
  | 0xb => do return 0xff00 ||| (← get8 .dp)
  | _ => throw (illegalReg reg)

def exgtfrWrite (reg data : BitVec 32) : M H Unit :=
  match reg.toNat with
  | 0x0 => setRegD data
  | 0x1 => set16 .x data
  | 0x2 => set16 .y data
  | 0x3 => set16 .u data
  | 0x4 => set16 .s data
  | 0x5 => setPc data
  | 0x8 => set8 .a data
  | 0x9 => set8 .b data
  | 0xa => set8 .cc data
  | 0xb => set8 .dp data
  | _ => throw (illegalReg reg)

def instExg : M H Unit := do
  let op ← pcRead8
  let tmp ← exgtfrRead (op &&& 0xf)
  exgtfrWrite (op &&& 0xf) (← exgtfrRead (op >>> 4))
  exgtfrWrite (op >>> 4) tmp

def instTfr : M H Unit := do
  let op ← pcRead8
  exgtfrWrite (op &&& 0xf) (← exgtfrRead (op >>> 4))

end Fuzemsys.Emulators.Cpu6809
