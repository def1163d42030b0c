import Fuzemsys.Emulators.Cpu6809.Inst

/-!
# One step of the 6809

The opcode switch of `e6809_sstep`, as three tables from opcodes to instructions
and one function that executes an instruction. The last number of an entry is
its count of cycles.
-/

namespace Fuzemsys.Emulators.Cpu6809

open Fuzemsys.Emulators

/-! ## Instructions -/

inductive EaMode where
  | direct
  | indexed
  | extended
  deriving DecidableEq, Repr

/-- Where a second operand is: after the opcode or in memory. -/
inductive Source where
  | immediate
  | memory (mode : EaMode)
  deriving DecidableEq, Repr

/-- One operand, read and written back. -/
inductive Unary where
  | neg
  | com
  | lsr
  | ror
  | asr
  | asl
  | rol
  | dec
  | inc
  deriving DecidableEq, Repr

inductive Binary8 where
  | sub8
  | sbc
  | and
  | eor
  | adc
  | or
  | add8
  deriving DecidableEq, Repr

/-- The registers that 16-bit loads, stores and compares work on. -/
inductive Wide where
  | d
  | reg (r : Reg16)
  deriving DecidableEq, Repr

/-- What a pair of branch opcodes tests. The low bit of the opcode inverts it. -/
inductive BranchTest where
  | ra
  | hi
  | hs
  | ne
  | vc
  | pl
  | ge
  | gt
  deriving DecidableEq, Repr

inductive Instr where
  | unaryMem (f : Unary) (mode : EaMode) (cyc : Nat)
  | unaryReg (f : Unary) (r : Reg8)
  | tstMem (mode : EaMode) (cyc : Nat)
  | tstReg (r : Reg8)
  | jmp (mode : EaMode) (cyc : Nat)
  | clrMem (mode : EaMode) (cyc : Nat)
  | clrReg (r : Reg8)
  /-- `keep` is false for cmp and bit, which only set the flags. -/
  | binary8 (f : Binary8) (keep : Bool) (r : Reg8) (src : Source) (cyc : Nat)
  | ld8 (r : Reg8) (src : Source) (cyc : Nat)
  | st8 (r : Reg8) (mode : EaMode) (cyc : Nat)
  | subd (src : Source) (cyc : Nat)
  | addd (src : Source) (cyc : Nat)
  | cmp16 (r : Wide) (src : Source) (cyc : Nat)
  | ld16 (r : Wide) (src : Source) (cyc : Nat)
  | st16 (r : Wide) (mode : EaMode) (cyc : Nat)
  | nop
  | mul
  | bra8 (test : BranchTest)
  | bra16 (test : BranchTest)
  | lbra
  | lbsr
  | bsr
  | jsr (mode : EaMode) (cyc : Nat)
  /-- `zero` is true for leax and leay, which set Z. -/
  | lea (r : Reg16) (zero : Bool)
  | psh (sp other : Reg16)
  | pul (sp other : Reg16)
  | rts
  | abx
  | orcc
  | andcc
  | sex
  | exg
  | tfr
  | rti
  | swi
  | sync
  | daa
  | cwai
  /-- swi2 and swi3, with their vectors. -/
  | swiVector (vector : BitVec 32)
  deriving DecidableEq, Repr

/-! ## Opcode tables -/

def page0 : List (BitVec 8 × Instr) :=
  [(0x00, .unaryMem .neg .direct 6), (0x40, .unaryReg .neg .a), (0x50, .unaryReg .neg .b),
   (0x60, .unaryMem .neg .indexed 6), (0x70, .unaryMem .neg .extended 7),
   (0x03, .unaryMem .com .direct 6), (0x43, .unaryReg .com .a), (0x53, .unaryReg .com .b),
   (0x63, .unaryMem .com .indexed 6), (0x73, .unaryMem .com .extended 7),
   (0x04, .unaryMem .lsr .direct 6), (0x44, .unaryReg .lsr .a), (0x54, .unaryReg .lsr .b),
   (0x64, .unaryMem .lsr .indexed 6), (0x74, .unaryMem .lsr .extended 7),
   (0x06, .unaryMem .ror .direct 6), (0x46, .unaryReg .ror .a), (0x56, .unaryReg .ror .b),
   (0x66, .unaryMem .ror .indexed 6), (0x76, .unaryMem .ror .extended 7),
   (0x07, .unaryMem .asr .direct 6), (0x47, .unaryReg .asr .a), (0x57, .unaryReg .asr .b),
   (0x67, .unaryMem .asr .indexed 6), (0x77, .unaryMem .asr .extended 7),
   (0x08, .unaryMem .asl .direct 6), (0x48, .unaryReg .asl .a), (0x58, .unaryReg .asl .b),
   (0x68, .unaryMem .asl .indexed 6), (0x78, .unaryMem .asl .extended 7),
   (0x09, .unaryMem .rol .direct 6), (0x49, .unaryReg .rol .a), (0x59, .unaryReg .rol .b),
   (0x69, .unaryMem .rol .indexed 6), (0x79, .unaryMem .rol .extended 7),
   (0x0a, .unaryMem .dec .direct 6), (0x4a, .unaryReg .dec .a), (0x5a, .unaryReg .dec .b),
   (0x6a, .unaryMem .dec .indexed 6), (0x7a, .unaryMem .dec .extended 7),
   (0x0c, .unaryMem .inc .direct 6), (0x4c, .unaryReg .inc .a), (0x5c, .unaryReg .inc .b),
   (0x6c, .unaryMem .inc .indexed 6), (0x7c, .unaryMem .inc .extended 7),
   (0x0d, .tstMem .direct 6), (0x4d, .tstReg .a), (0x5d, .tstReg .b),
   (0x6d, .tstMem .indexed 6), (0x7d, .tstMem .extended 7),
   (0x0e, .jmp .direct 3), (0x6e, .jmp .indexed 3), (0x7e, .jmp .extended 4),
   (0x0f, .clrMem .direct 6), (0x4f, .clrReg .a), (0x5f, .clrReg .b),
   (0x6f, .clrMem .indexed 6), (0x7f, .clrMem .extended 7),
   -- suba, subb
   (0x80, .binary8 .sub8 true .a .immediate 2), (0x90, .binary8 .sub8 true .a (.memory .direct) 4),
   (0xa0, .binary8 .sub8 true .a (.memory .indexed) 4), (0xb0, .binary8 .sub8 true .a (.memory .extended) 5),
   (0xc0, .binary8 .sub8 true .b .immediate 2), (0xd0, .binary8 .sub8 true .b (.memory .direct) 4),
   (0xe0, .binary8 .sub8 true .b (.memory .indexed) 4), (0xf0, .binary8 .sub8 true .b (.memory .extended) 5),
   -- cmpa, cmpb
   (0x81, .binary8 .sub8 false .a .immediate 2), (0x91, .binary8 .sub8 false .a (.memory .direct) 4),
   (0xa1, .binary8 .sub8 false .a (.memory .indexed) 4), (0xb1, .binary8 .sub8 false .a (.memory .extended) 5),
   (0xc1, .binary8 .sub8 false .b .immediate 2), (0xd1, .binary8 .sub8 false .b (.memory .direct) 4),
   (0xe1, .binary8 .sub8 false .b (.memory .indexed) 4), (0xf1, .binary8 .sub8 false .b (.memory .extended) 5),
   -- sbca, sbcb
   (0x82, .binary8 .sbc true .a .immediate 2), (0x92, .binary8 .sbc true .a (.memory .direct) 4),
   (0xa2, .binary8 .sbc true .a (.memory .indexed) 4), (0xb2, .binary8 .sbc true .a (.memory .extended) 5),
   (0xc2, .binary8 .sbc true .b .immediate 2), (0xd2, .binary8 .sbc true .b (.memory .direct) 4),
   (0xe2, .binary8 .sbc true .b (.memory .indexed) 4), (0xf2, .binary8 .sbc true .b (.memory .extended) 5),
   -- anda, andb
   (0x84, .binary8 .and true .a .immediate 2), (0x94, .binary8 .and true .a (.memory .direct) 4),
   (0xa4, .binary8 .and true .a (.memory .indexed) 4), (0xb4, .binary8 .and true .a (.memory .extended) 5),
   (0xc4, .binary8 .and true .b .immediate 2), (0xd4, .binary8 .and true .b (.memory .direct) 4),
   (0xe4, .binary8 .and true .b (.memory .indexed) 4), (0xf4, .binary8 .and true .b (.memory .extended) 5),
   -- bita, bitb
   (0x85, .binary8 .and false .a .immediate 2), (0x95, .binary8 .and false .a (.memory .direct) 4),
   (0xa5, .binary8 .and false .a (.memory .indexed) 4), (0xb5, .binary8 .and false .a (.memory .extended) 5),
   (0xc5, .binary8 .and false .b .immediate 2), (0xd5, .binary8 .and false .b (.memory .direct) 4),
   (0xe5, .binary8 .and false .b (.memory .indexed) 4), (0xf5, .binary8 .and false .b (.memory .extended) 5),
   (0x86, .ld8 .a .immediate 2), (0x96, .ld8 .a (.memory .direct) 4),
   (0xa6, .ld8 .a (.memory .indexed) 4), (0xb6, .ld8 .a (.memory .extended) 5),
   (0xc6, .ld8 .b .immediate 2), (0xd6, .ld8 .b (.memory .direct) 4),
   (0xe6, .ld8 .b (.memory .indexed) 4), (0xf6, .ld8 .b (.memory .extended) 5),
   (0x97, .st8 .a .direct 4), (0xa7, .st8 .a .indexed 4), (0xb7, .st8 .a .extended 5),
   (0xd7, .st8 .b .direct 4), (0xe7, .st8 .b .indexed 4), (0xf7, .st8 .b .extended 5),
   -- eora, eorb
   (0x88, .binary8 .eor true .a .immediate 2), (0x98, .binary8 .eor true .a (.memory .direct) 4),
   (0xa8, .binary8 .eor true .a (.memory .indexed) 4), (0xb8, .binary8 .eor true .a (.memory .extended) 5),
   (0xc8, .binary8 .eor true .b .immediate 2), (0xd8, .binary8 .eor true .b (.memory .direct) 4),
   (0xe8, .binary8 .eor true .b (.memory .indexed) 4), (0xf8, .binary8 .eor true .b (.memory .extended) 5),
   -- adca, adcb
   (0x89, .binary8 .adc true .a .immediate 2), (0x99, .binary8 .adc true .a (.memory .direct) 4),
   (0xa9, .binary8 .adc true .a (.memory .indexed) 4), (0xb9, .binary8 .adc true .a (.memory .extended) 5),
   (0xc9, .binary8 .adc true .b .immediate 2), (0xd9, .binary8 .adc true .b (.memory .direct) 4),
   (0xe9, .binary8 .adc true .b (.memory .indexed) 4), (0xf9, .binary8 .adc true .b (.memory .extended) 5),
   -- ora, orb
   (0x8a, .binary8 .or true .a .immediate 2), (0x9a, .binary8 .or true .a (.memory .direct) 4),
   (0xaa, .binary8 .or true .a (.memory .indexed) 4), (0xba, .binary8 .or true .a (.memory .extended) 5),
   (0xca, .binary8 .or true .b .immediate 2), (0xda, .binary8 .or true .b (.memory .direct) 4),
   (0xea, .binary8 .or true .b (.memory .indexed) 4), (0xfa, .binary8 .or true .b (.memory .extended) 5),
   -- adda, addb
   (0x8b, .binary8 .add8 true .a .immediate 2), (0x9b, .binary8 .add8 true .a (.memory .direct) 4),
   (0xab, .binary8 .add8 true .a (.memory .indexed) 4), (0xbb, .binary8 .add8 true .a (.memory .extended) 5),
   (0xcb, .binary8 .add8 true .b .immediate 2), (0xdb, .binary8 .add8 true .b (.memory .direct) 4),
   (0xeb, .binary8 .add8 true .b (.memory .indexed) 4), (0xfb, .binary8 .add8 true .b (.memory .extended) 5),
   (0x83, .subd .immediate 4), (0x93, .subd (.memory .direct) 6),
   (0xa3, .subd (.memory .indexed) 6), (0xb3, .subd (.memory .extended) 7),
   (0x8c, .cmp16 (.reg .x) .immediate 4), (0x9c, .cmp16 (.reg .x) (.memory .direct) 6),
   (0xac, .cmp16 (.reg .x) (.memory .indexed) 6), (0xbc, .cmp16 (.reg .x) (.memory .extended) 7),
   (0x8e, .ld16 (.reg .x) .immediate 3), (0x9e, .ld16 (.reg .x) (.memory .direct) 5),
   (0xae, .ld16 (.reg .x) (.memory .indexed) 5), (0xbe, .ld16 (.reg .x) (.memory .extended) 6),
   (0xce, .ld16 (.reg .u) .immediate 3), (0xde, .ld16 (.reg .u) (.memory .direct) 5),
   (0xee, .ld16 (.reg .u) (.memory .indexed) 5), (0xfe, .ld16 (.reg .u) (.memory .extended) 6),
   (0x9f, .st16 (.reg .x) .direct 5), (0xaf, .st16 (.reg .x) .indexed 5), (0xbf, .st16 (.reg .x) .extended 6),
   (0xdf, .st16 (.reg .u) .direct 5), (0xef, .st16 (.reg .u) .indexed 5), (0xff, .st16 (.reg .u) .extended 6),
   (0xc3, .addd .immediate 4), (0xd3, .addd (.memory .direct) 6),
   (0xe3, .addd (.memory .indexed) 6), (0xf3, .addd (.memory .extended) 7),
   (0xcc, .ld16 .d .immediate 3), (0xdc, .ld16 .d (.memory .direct) 5),
   (0xec, .ld16 .d (.memory .indexed) 5), (0xfc, .ld16 .d (.memory .extended) 6),
   (0xdd, .st16 .d .direct 5), (0xed, .st16 .d .indexed 5), (0xfd, .st16 .d .extended 6),
   (0x12, .nop), (0x3d, .mul),
   (0x20, .bra8 .ra), (0x21, .bra8 .ra), (0x22, .bra8 .hi), (0x23, .bra8 .hi), (0x24, .bra8 .hs),
   (0x25, .bra8 .hs), (0x26, .bra8 .ne), (0x27, .bra8 .ne), (0x28, .bra8 .vc), (0x29, .bra8 .vc),
   (0x2a, .bra8 .pl), (0x2b, .bra8 .pl), (0x2c, .bra8 .ge), (0x2d, .bra8 .ge), (0x2e, .bra8 .gt),
   (0x2f, .bra8 .gt), (0x16, .lbra), (0x17, .lbsr), (0x8d, .bsr),
   (0x9d, .jsr .direct 7), (0xad, .jsr .indexed 7), (0xbd, .jsr .extended 8),
   (0x30, .lea .x true), (0x31, .lea .y true), (0x32, .lea .s false), (0x33, .lea .u false),
   (0x34, .psh .s .u), (0x35, .pul .s .u), (0x36, .psh .u .s), (0x37, .pul .u .s),
   (0x39, .rts), (0x3a, .abx), (0x1a, .orcc), (0x1c, .andcc), (0x1d, .sex), (0x1e, .exg), (0x1f, .tfr),
   (0x3b, .rti), (0x3f, .swi), (0x13, .sync), (0x19, .daa), (0x3c, .cwai)]

def page1 : List (BitVec 8 × Instr) :=
  [(0x20, .bra16 .ra), (0x21, .bra16 .ra), (0x22, .bra16 .hi), (0x23, .bra16 .hi), (0x24, .bra16 .hs),
   (0x25, .bra16 .hs), (0x26, .bra16 .ne), (0x27, .bra16 .ne), (0x28, .bra16 .vc), (0x29, .bra16 .vc),
   (0x2a, .bra16 .pl), (0x2b, .bra16 .pl), (0x2c, .bra16 .ge), (0x2d, .bra16 .ge), (0x2e, .bra16 .gt),
   (0x2f, .bra16 .gt),
   (0x83, .cmp16 .d .immediate 5), (0x93, .cmp16 .d (.memory .direct) 7),
   (0xa3, .cmp16 .d (.memory .indexed) 7), (0xb3, .cmp16 .d (.memory .extended) 8),
   (0x8c, .cmp16 (.reg .y) .immediate 5), (0x9c, .cmp16 (.reg .y) (.memory .direct) 7),
   (0xac, .cmp16 (.reg .y) (.memory .indexed) 7), (0xbc, .cmp16 (.reg .y) (.memory .extended) 8),
   (0x8e, .ld16 (.reg .y) .immediate 4), (0x9e, .ld16 (.reg .y) (.memory .direct) 6),
   (0xae, .ld16 (.reg .y) (.memory .indexed) 6), (0xbe, .ld16 (.reg .y) (.memory .extended) 7),
   (0x9f, .st16 (.reg .y) .direct 6), (0xaf, .st16 (.reg .y) .indexed 6), (0xbf, .st16 (.reg .y) .extended 7),
   (0xce, .ld16 (.reg .s) .immediate 4), (0xde, .ld16 (.reg .s) (.memory .direct) 6),
   (0xee, .ld16 (.reg .s) (.memory .indexed) 6), (0xfe, .ld16 (.reg .s) (.memory .extended) 7),
   (0xdf, .st16 (.reg .s) .direct 6), (0xef, .st16 (.reg .s) .indexed 6), (0xff, .st16 (.reg .s) .extended 7),
   (0x3f, .swiVector 0xfff4)]

def page2 : List (BitVec 8 × Instr) :=
  [(0x83, .cmp16 (.reg .u) .immediate 5), (0x93, .cmp16 (.reg .u) (.memory .direct) 7),
   (0xa3, .cmp16 (.reg .u) (.memory .indexed) 7), (0xb3, .cmp16 (.reg .u) (.memory .extended) 8),
   (0x8c, .cmp16 (.reg .s) .immediate 5), (0x9c, .cmp16 (.reg .s) (.memory .direct) 7),
   (0xac, .cmp16 (.reg .s) (.memory .indexed) 7), (0xbc, .cmp16 (.reg .s) (.memory .extended) 8),
   (0x3f, .swiVector 0xfff2)]

/-- The case of a switch with the given label. -/
def decode (page : List (BitVec 8 × Instr)) (op : BitVec 8) : Option Instr := page.lookup op

/-! ## Executing an instruction -/

/-- What the emulator around the interpreter does, as far as it can see the machine. -/
structure World (H : Type) where
  /-- A session at the monitor without its step command. It returns an address or -1. -/
  monitor : Regs → Mem → Brkpoints → H → Except Stop (Int × Mem × Brkpoints × H)
  /-- `do_syscall`, given the call number, the stack pointer and the memory. It returns the
  result, whether that is a long result, and errno. -/
  doSyscall : BitVec 32 → BitVec 16 → Mem → H → Except Stop (BitVec 32 × BitVec 32 × BitVec 32 × Mem × H)

variable {H : Type}

def ea (mode : EaMode) : M H (BitVec 32) :=
  match mode with
  | .direct => eaDirect
  | .indexed => eaIndexed
  | .extended => eaExtended

def source8 (src : Source) : M H (BitVec 32) :=
  match src with
  | .immediate => pcRead8
  | .memory mode => do read8 (← ea mode)

def source16 (src : Source) : M H (BitVec 32) :=
  match src with
  | .immediate => pcRead16
  | .memory mode => do read16 (← ea mode)

def instUnary (f : Unary) (data : BitVec 32) : M H (BitVec 32) :=
  match f with
  | .neg => instNeg data
  | .com => instCom data
  | .lsr => instLsr data
  | .ror => instRor data
  | .asr => instAsr data
  | .asl => instAsl data
  | .rol => instRol data
  | .dec => instDec data
  | .inc => instInc data

def instBinary8 (f : Binary8) (data0 data1 : BitVec 32) : M H (BitVec 32) :=
  match f with
  | .sub8 => instSub8 data0 data1
  | .sbc => instSbc data0 data1
  | .and => instAnd data0 data1
  | .eor => instEor data0 data1
  | .adc => instAdc data0 data1
  | .or => instOr data0 data1
  | .add8 => instAdd8 data0 data1

def getWide (r : Wide) : M H (BitVec 32) :=
  match r with
  | .d => getRegD
  | .reg r => get16 r

def setWide (r : Wide) (val : BitVec 32) : M H Unit :=
  match r with
  | .d => setRegD val
  | .reg r => set16 r val

def branchTest (test : BranchTest) : M H (BitVec 32) :=
  match test with
  | .ra => return 0
  | .hi => do return (← getCc .C) ||| (← getCc .Z)
  | .hs => getCc .C
  | .ne => getCc .Z
  | .vc => getCc .V
  | .pl => getCc .N
  | .ge => do return (← getCc .N) ^^^ (← getCc .V)
  | .gt => do return (← getCc .Z) ||| ((← getCc .N) ^^^ (← getCc .V))

/-- X gets the result, errno in D. -/
def afterSyscall (result longresult errno : BitVec 32) : M H Unit := do
  set16 .x (result &&& 0xffff)
  setRegD errno
  if longresult ≠ 0 then set16 .y ((result.sshiftRight 16) &&& 0xffff)

/-- As this is handled by `do_syscall`, nothing is pushed and no flag is set. -/
def instSwi (world : World H) : M H Unit := do
  let op ← getRegD
  fun m =>
    let m := { m with accesses := .syscall op :: m.accesses }
    match world.doSyscall op (e6809GetRegs m).s m.mem m.host with
    | .error stop => .error stop m
    | .ok (result, longresult, errno, mem, host) =>
      afterSyscall result longresult errno { m with mem := mem, host := host }

def instDaa : M H Unit := do
  let i0 ← get8 .a
  let h ← getCc .H
  let c ← getCc .C
  let i1 : BitVec 32 := if (i0 &&& 0x0f) > 0x09 ∨ h = 1 then 0x06 else 0
  let i1 := if (i0 &&& 0xf0) > 0x80 ∧ (i0 &&& 0x0f) > 0x09 then i1 ||| 0x60 else i1
  let i1 := if (i0 &&& 0xf0) > 0x90 ∨ c = 1 then i1 ||| 0x60 else i1
  set8 .a (i0 + i1)
  let a ← get8 .a
  setCc .N (testN a)
  setCc .Z (testZ8 a)
  setCc .V 0
  setCc .C (testC i0 i1 a 0)

/-- One case of the opcode switch. `op` is the opcode itself. -/
def exec (world : World H) (op : BitVec 32) : Instr → M H Unit
  | .unaryMem f mode cyc => do
    let ea ← ea mode
    let r ← instUnary f (← read8 ea)
    write8 ea r
    addCycles (.ofNat 32 cyc)
  | .unaryReg f r => do
    set8 r (← instUnary f (← get8 r))
    addCycles 2
  | .tstMem mode cyc => do
    instTst8 (← read8 (← ea mode))
    addCycles (.ofNat 32 cyc)
  | .tstReg r => do
    instTst8 (← get8 r)
    addCycles 2
  | .jmp mode cyc => do
    setPc (← ea mode)
    addCycles (.ofNat 32 cyc)
  | .clrMem mode cyc => do
    let ea ← ea mode
    instClr
    write8 ea 0
    addCycles (.ofNat 32 cyc)
  | .clrReg r => do
    instClr
    set8 r 0
    addCycles 2
  | .binary8 f keep r src cyc => do
    let data ← source8 src
    let res ← instBinary8 f (← get8 r) data
    if keep then set8 r res
    addCycles (.ofNat 32 cyc)
  | .ld8 r src cyc => do
    set8 r (← source8 src)
    instTst8 (← get8 r)
    addCycles (.ofNat 32 cyc)
  | .st8 r mode cyc => do
    let ea ← ea mode
    write8 ea (← get8 r)
    instTst8 (← get8 r)
    addCycles (.ofNat 32 cyc)
  | .subd src cyc => do
    let data ← source16 src
    setRegD (← instSub16 (← getRegD) data)
    addCycles (.ofNat 32 cyc)
  | .addd src cyc => do
    let data ← source16 src
    setRegD (← instAdd16 (← getRegD) data)
    addCycles (.ofNat 32 cyc)
  | .cmp16 r src cyc => do
    let data ← source16 src
    let _ ← instSub16 (← getWide r) data
    addCycles (.ofNat 32 cyc)
  | .ld16 r src cyc => do
    setWide r (← source16 src)
    instTst16 (← getWide r)
    addCycles (.ofNat 32 cyc)
  | .st16 r mode cyc => do
    let ea ← ea mode
    write16 ea (← getWide r)
    instTst16 (← getWide r)
    addCycles (.ofNat 32 cyc)
  | .nop => addCycles 2
  | .mul => do
    let r := ((← get8 .a) &&& 0xff) * ((← get8 .b) &&& 0xff)
    setRegD r
    setCc .Z (testZ16 r)
    setCc .C ((r >>> 7) &&& 1)
    addCycles 11
  | .bra8 test => do instBra8 (← branchTest test) op
  | .bra16 test => do instBra16 (← branchTest test) op
  | .lbra => do
    addPc (← pcRead16)
    addCycles 5
  | .lbsr => do
    let r ← pcRead16
    push16 .s ((← getPc).setWidth 32)
    addPc r
    addCycles 9
  | .bsr => do
    let r ← pcRead8
    push16 .s ((← getPc).setWidth 32)
    addPc (signExtend r)
    addCycles 7
  | .jsr mode cyc => do
    let ea ← ea mode
    push16 .s ((← getPc).setWidth 32)
    setPc ea
    addCycles (.ofNat 32 cyc)
  | .lea r zero => do
    set16 r (← eaIndexed)
    if zero then setCc .Z (testZ16 (← get16 r))
    addCycles 4
  | .psh sp other => do
    let op ← pcRead8
    instPsh op sp (← get16 other)
    addCycles 5
  | .pul sp other => do
    instPul (← pcRead8) sp other
    addCycles 5
  | .rts => do
    setPc (← pull16 .s)
    addCycles 5
  | .abx => do
    set16 .x ((← get16 .x) + ((← get8 .b) &&& 0xff))
    addCycles 3
  | .orcc => do
    let data ← pcRead8
    set8 .cc ((← get8 .cc) ||| data)
    addCycles 3
  | .andcc => do
    let data ← pcRead8
    set8 .cc ((← get8 .cc) &&& data)
    addCycles 3
  | .sex => do
    setRegD (signExtend (← get8 .b))
    setCc .N (testN (← get8 .a))
    setCc .Z (testZ16 (← getRegD))
    addCycles 2
  | .exg => do
    instExg
    addCycles 8
  | .tfr => do
    instTfr
    addCycles 6
  | .rti => do
    if (← getCc .E) ≠ 0 then instPul 0xff .s .u else instPul 0x81 .s .u
    addCycles 3
  | .swi => do
    instSwi world
    addCycles 7
  | .sync => do
    setIrqStatus .sync
    addCycles 2
  | .daa => do
    instDaa
    addCycles 2
  | .cwai => do
    let data ← pcRead8
    set8 .cc ((← get8 .cc) &&& data)
    setCc .E 1
    instPsh 0xff .s (← get16 .u)
    setIrqStatus .cwai
    addCycles 4
  | .swiVector vector => do
    setCc .E 1
    instPsh 0xff .s (← get16 .u)
    setPc (← read16 vector)
    addCycles 8

/-! ## The step -/

/-- The local counter of cycles starts at zero. -/
def startCycles : M H Unit := fun m => .ok () { m with cycles := 0 }

/-- Whether the program counter is at a breakpoint, or a write breakpoint was hit. -/
def breakpointHit : M H Bool := fun m =>
  if m.writeBrkpt then .ok true m
  else
    let hit := isBreakpoint m.brkpoints m.regPc .inst
    .ok hit.1 { m with brkpoints := hit.2 }

def runMonitor (world : World H) : M H Unit := fun m =>
  let m := { m with writeBrkpt := false }
  match world.monitor (e6809GetRegs m) m.mem m.brkpoints m.host with
  | .error stop => .error stop m
  | .ok (addr, mem, brkpoints, host) =>
    -- If we have a new PC from the monitor, set it
    let regPc := if addr ≠ -1 then BitVec.ofInt 16 addr else m.regPc
    .ok () { m with mem := mem, brkpoints := brkpoints, host := host, regPc := regPc }

/-- If the PC is a breakpoint, or we hit a write breakpoint, fall into the monitor. -/
def checkBreakpoint (world : World H) : M H Unit := do
  if ← breakpointHit then runMonitor world

/-- What both interrupts do once they are let in. -/
def enterInterrupt (vector : BitVec 32) : M H Unit := do
  setPc (← read16 vector)
  setIrqStatus .normal
  addCycles 7

def getIrqStatus : M H IrqStatus := fun m => .ok m.irqStatus m

def interruptF : M H Unit := do
  if (← getCc .F) = 0 then
    if (← getIrqStatus) ≠ .cwai then
      setCc .E 0
      instPsh 0x81 .s (← get16 .u)
   
    setCc .I 1
    setCc .F 1
    enterInterrupt 0xfff6
  else if (← getIrqStatus) = .sync then setIrqStatus .normal
 

def interruptI : M H Unit := do
  if (← getCc .I) = 0 then
    if (← getIrqStatus) ≠ .cwai then
      setCc .E 1
      instPsh 0xff .s (← get16 .u)
   
    setCc .I 1
    enterInterrupt 0xfff8
  else if (← getIrqStatus) = .sync then setIrqStatus .normal
 

def unknownOpcode (page : String) (op : BitVec 32) : Stop :=
  .rejected ("unknown page-" ++ page ++ " op code: " ++ Lib.hex 2 op.toNat ++ "\n")

/-- The opcode switch of one page. -/
def execFrom (world : World H) (page : List (BitVec 8 × Instr)) (name : String) (op : BitVec 32) : M H Unit :=
  match decode page (op.setWidth 8) with
  | some instr => exec world op instr
  | none => throw (unknownOpcode name op)

/-- The opcode switch: page 0, with pages 1 and 2 behind 0x10 and 0x11. -/
def dispatchOn (world : World H) (op : BitVec 32) : M H Unit :=
  if op = 0x10 then do execFrom world page1 "1" (← pcRead8)
  else if op = 0x11 then do execFrom world page2 "2" (← pcRead8)
  else execFrom world page0 "0" op

def dispatch (world : World H) : M H Unit := do
  dispatchOn world (← pcRead8)

/-- Breakpoints and interrupts, before the instruction. -/
def prologue (world : World H) (irqI irqF : Bool) : M H Unit := do
  startCycles
  checkBreakpoint world
  if irqF then interruptF
  if irqI then interruptI

/-- Execute a single instruction or handle interrupts and return. -/
def e6809Sstep (world : World H) (irqI irqF : Bool) : M H (BitVec 32) := do
  prologue world irqI irqF
  if (← getIrqStatus) ≠ .normal then
    return (← fun m => .ok m.cycles m) + 1
  else
    dispatch world
    return (← getPc).setWidth 32

/-! ## Machines to try it on -/

/-- A machine with the given memory and nothing else. -/
def clearMachine (ram : BitVec 16 → BitVec 8) : Machine Unit where
  reg8 := fun _ => 0
  reg16 := fun _ => 0
  regPc := 0
  irqStatus := .normal
  writeBrkpt := false
  cycles := 0
  mem := { ram := ram, fefcval := 0, printed := [] }
  brkpoints := { brkpointlist := [], ignoredAddr := -1 }
  host := ()
  accesses := []
  fetched := 0

/-- A world where every system call succeeds and returns zero. -/
def quietWorld : World Unit where
  monitor := fun _ mem brkpoints host => .ok (-1, mem, brkpoints, host)
  doSyscall := fun _ _ mem host => .ok (0, 0, 0, mem, host)

end Fuzemsys.Emulators.Cpu6809
