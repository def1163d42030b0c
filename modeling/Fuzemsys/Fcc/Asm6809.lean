import Fuzemsys.Fcc.Track6800

/-!
# Lines for the 6809 assembler

What the 6809 code generator prints, what the assembler makes of it, and what the machine
does then.
-/

open Fuzemsys.Lib

namespace Fuzemsys.Fcc.Code6800

/-! ## Lines -/

inductive Reg where
  | a
  | b
  | d
  | x
  | y
  | s
  deriving DecidableEq, Repr

inductive Mnemonic where
  | clra
  | clrb
  | lda
  | ldb
  | ldd
  | ldy
  | tfr
  | exg
  | adda
  | addb
  | addd
  | adca
  | adcb
  | anda
  | andb
  | ora
  | orb
  | eora
  | eorb
  | coma
  | comb
  | lsl
  | lslb
  | asr
  | asra
  | asrb
  | lsr
  | lsra
  | lsrb
  | rola
  | rorb
  | cmpb
  | subd
  | leas
  | leay
  | pshs
  | sex
  | lbsr
  | tba
  | tab
  | xgdx
  | xgdy
  deriving DecidableEq, Repr

/-- The routines of makebool.s that a comparison calls. -/
inductive BoolRoutine where
  | booleq
  | boolne
  | boolle
  | boollt
  | boolge
  | boolgt
  | boolule
  | boolult
  | booluge
  | boolugt
  deriving DecidableEq, Repr

inductive Operand where
  | none
  /-- `#n` -/
  | imm (n : Nat)
  /-- `r,r'` -/
  | pair (r r' : Reg)
  | list (r : Reg)
  /-- `n,r` -/
  | index (n : Nat) (r : Reg)
  /-- `,r+` -/
  | postInc (r : Reg)
  /-- `,r++` -/
  | postInc2 (r : Reg)
  | routine (f : BoolRoutine)
  deriving DecidableEq, Repr

structure Line where
  mnemonic : Mnemonic
  operand : Operand
  deriving DecidableEq, Repr

/-- A line without an operand. -/
def plain (m : Mnemonic) : Line := ⟨m, .none⟩

def immediate (m : Mnemonic) (n : Nat) : Line := ⟨m, .imm n⟩

/-! ## The assembler -/

/-- The types of its instruction table. -/
inductive Kind where
  | TIMP
  | THI
  | THIW
  | TLO
  | TLEA
  | TEXG
  | TPUSH
  | TLBRA
  deriving DecidableEq, Repr

/-- The 6800 names are not in the table. -/
def Mnemonic.kind : Mnemonic → Option Kind
  | clra | clrb | coma | comb | lslb | asra | asrb | lsra | lsrb | rola | rorb | sex => some .TIMP
  | lda | ldb | adda | addb | adca | adcb | anda | andb | ora | orb | eora | eorb | cmpb => some .THI
  | ldd | ldy | addd | subd => some .THIW
  | lsl | asr | lsr => some .TLO
  | leas | leay => some .TLEA
  | tfr | exg => some .TEXG
  | pshs => some .TPUSH
  | lbsr => some .TLBRA
  | tba | tab | xgdx | xgdy => Option.none

def Reg.isIndex : Reg → Bool
  | .x | .y | .s => true
  | _ => false

def Reg.isByte : Reg → Bool
  | .a | .b => true
  | _ => false

/-- The forms of `asmline` that are no error. A post increment must be of the size of the data. -/
def accepts (l : Line) : Bool :=
  match l.mnemonic.kind, l.operand with
  | some .TIMP, .none => true
  | some .THI, .imm _ | some .THIW, .imm _ => true
  | some .THI, .index _ r | some .THIW, .index _ r | some .TLO, .index _ r | some .TLEA, .index _ r => r.isIndex
  | some .THI, .postInc r => r.isIndex
  | some .THIW, .postInc2 r | some .TLO, .postInc2 r => r.isIndex
  | some .TEXG, .pair r r' => r.isByte == r'.isByte
  | some .TPUSH, .list r => r != .s
  | some .TLBRA, .routine _ => true
  | _, _ => false

/-! ## The machine -/

structure Cpu extends Regs where
  s : BitVec 16
  mem : BitVec 16 → Byte
  negative : Bool
  zero : Bool
  overflow : Bool

namespace Cpu

variable (c : Cpu)

/-- Y and D together. -/
def long : BitVec 32 := c.y ++ c.d

def setD (d : BitVec 16) : Cpu := { c with a := hiByte d, b := loByte d }

/-- An index register. -/
def index (r : Reg) : BitVec 16 :=
  match r with
  | .x => c.x
  | .y => c.y
  | _ => c.s

def setIndex (r : Reg) (v : BitVec 16) : Cpu :=
  match r with
  | .x => { c with x := v }
  | .y => { c with y := v }
  | _ => { c with s := v }

/-- Where an operand lies in memory. -/
def address : Operand → BitVec 16
  | .index n r => c.index r + BitVec.ofNat 16 n
  | .postInc r => c.index r
  | .postInc2 r => c.index r
  | _ => 0

def byteAt (a : BitVec 16) : Byte := c.mem a

/-- The high byte is first. -/
def wordAt (a : BitVec 16) : BitVec 16 := c.mem a ++ c.mem (a + 1)

def byteOf : Operand → Byte
  | .imm n => BitVec.ofNat 8 n
  | o => c.byteAt (c.address o)

def wordOf : Operand → BitVec 16
  | .imm n => BitVec.ofNat 16 n
  | o => c.wordAt (c.address o)

/-- Step over the operand. -/
def advance : Operand → Cpu
  | .postInc r => c.setIndex r (c.index r + 1)
  | .postInc2 r => c.setIndex r (c.index r + 2)
  | _ => c

/-! ### Flags -/

/-- Of a load or a bit operation. -/
def test {n : Nat} (r : BitVec n) : Cpu := { c with negative := r.msb, zero := decide (r = 0), overflow := false }

/-- Of a sum. -/
def sumFlags {n : Nat} (x y : BitVec n) (carry : Bool) : Cpu :=
  let r := x + y + (carryBit carry).setWidth n
  let exact := x.toInt + y.toInt + (carryBit carry).toNat
  { c with
    negative := r.msb
    zero := decide (r = 0)
    overflow := decide (exact < -2 ^ (n - 1) ∨ 2 ^ (n - 1) ≤ exact)
    carry := decide (2 ^ n ≤ x.toNat + y.toNat + (carryBit carry).toNat) }

/-- Of a difference. The carry is a borrow. -/
def differenceFlags {n : Nat} (x y : BitVec n) : Cpu :=
  { c with
    negative := (x - y).msb
    zero := decide (x - y = 0)
    overflow := x.ssubOverflow y
    carry := x.ult y }

/-! ### makebool.s -/

/-- `ldd @one` -/
def ret1 : Cpu := { c with a := 0, b := 1, negative := false, zero := false, overflow := false }

def ret0 : Cpu := { c with a := 0, b := 0, negative := false, zero := true, overflow := false, carry := false }

/-- `ldd @zero`, `rolb` -/
def rolled : Cpu :=
  { c with a := 0, b := carryBit c.carry, negative := false, zero := !c.carry, overflow := false, carry := false }

/-- Each entry of makebool.s, and those that it falls into. -/
def routine : BoolRoutine → Cpu
  | .booleq => if c.zero then c.ret1 else c.ret0
  | .boolne => if c.zero then c.ret0 else c.ret1
  | .boolle => if c.zero then c.ret1 else if c.negative != c.overflow then c.ret1 else c.ret0
  | .boollt => if c.negative != c.overflow then c.ret1 else c.ret0
  | .boolge => if c.zero then c.ret1 else if !c.zero && c.negative == c.overflow then c.ret1 else c.ret0
  | .boolgt => if !c.zero && c.negative == c.overflow then c.ret1 else c.ret0
  | .boolule => if c.zero then c.ret1 else c.rolled
  | .boolult => c.rolled
  | .booluge => if c.carry then c.ret0 else c.ret1
  | .boolugt => if c.zero then c.ret0 else if c.carry then c.ret0 else c.ret1

/-! ### Instructions -/

def exchange : Operand → Cpu
  | .pair .d .y => { c.setD c.y with y := c.d }
  | .pair .d .x => { c.setD c.x with x := c.d }
  | _ => c

def transfer : Operand → Cpu
  | .pair .b .a => { c with a := c.b }
  | .pair .a .b => { c with b := c.a }
  | .pair .s .x => { c with x := c.s }
  | _ => c

def write (a : BitVec 16) (v : Byte) : Cpu := { c with mem := fun i => if i = a then v else c.mem i }

/-- The low byte is pushed first. -/
def pushWord (v : BitVec 16) : Cpu :=
  { (c.write (c.s - 1) (loByte v)).write (c.s - 2) (hiByte v) with s := c.s - 2 }

def push : Operand → Cpu
  | .list .b => { c.write (c.s - 1) c.b with s := c.s - 1 }
  | .list .d => c.pushWord c.d
  | .list .y => c.pushWord c.y
  | _ => c

end Cpu

def execLine (c : Cpu) (l : Line) : Cpu :=
  let o := l.operand
  let m := c.byteOf o
  let w := c.wordOf o
  let c' := c.advance o
  match l.mnemonic with
  | .clra => { c with a := 0, negative := false, zero := true, overflow := false, carry := false }
  | .clrb => { c with b := 0, negative := false, zero := true, overflow := false, carry := false }
  | .lda => { c' with a := m }.test m
  | .ldb => { c' with b := m }.test m
  | .ldd => (c'.setD w).test w
  | .ldy => { c' with y := w }.test w
  | .tfr => c.transfer o
  | .exg => c.exchange o
  | .adda => { c' with a := c.a + m }.sumFlags c.a m false
  | .addb => { c' with b := c.b + m }.sumFlags c.b m false
  | .addd => (c'.setD (c.d + w)).sumFlags c.d w false
  | .adca => { c' with a := c.a + m + carryBit c.carry }.sumFlags c.a m c.carry
  | .adcb => { c' with b := c.b + m + carryBit c.carry }.sumFlags c.b m c.carry
  | .anda => { c' with a := c.a &&& m }.test (c.a &&& m)
  | .andb => { c' with b := c.b &&& m }.test (c.b &&& m)
  | .ora => { c' with a := c.a ||| m }.test (c.a ||| m)
  | .orb => { c' with b := c.b ||| m }.test (c.b ||| m)
  | .eora => { c' with a := c.a ^^^ m }.test (c.a ^^^ m)
  | .eorb => { c' with b := c.b ^^^ m }.test (c.b ^^^ m)
  | .coma => { { c with a := ~~~c.a }.test (~~~c.a) with carry := true }
  | .comb => { { c with b := ~~~c.b }.test (~~~c.b) with carry := true }
  | .lslb => { { c with b := c.b <<< 1 }.test (c.b <<< 1) with carry := c.b.msb, overflow := c.b.msb != (c.b <<< 1).msb }
  | .rola =>
    let r := c.a <<< 1 ||| carryBit c.carry
    { { c with a := r }.test r with carry := c.a.msb, overflow := c.a.msb != r.msb }
  | .asra => { { c with a := c.a.sshiftRight 1 }.test (c.a.sshiftRight 1) with carry := c.a.getLsbD 0, overflow := c.overflow }
  | .asrb => { { c with b := c.b.sshiftRight 1 }.test (c.b.sshiftRight 1) with carry := c.b.getLsbD 0, overflow := c.overflow }
  | .lsra => { { c with a := c.a >>> 1 }.test (c.a >>> 1) with carry := c.a.getLsbD 0, overflow := c.overflow }
  | .lsrb => { { c with b := c.b >>> 1 }.test (c.b >>> 1) with carry := c.b.getLsbD 0, overflow := c.overflow }
  | .rorb =>
    let r := carryBit c.carry <<< 7 ||| c.b >>> 1
    { { c with b := r }.test r with carry := c.b.getLsbD 0, overflow := c.overflow }
  | .cmpb => c'.differenceFlags c.b m
  | .subd => (c'.setD (c.d - w)).differenceFlags c.d w
  | .leas => { c with s := c.address o }
  | .leay => { c with y := c.address o, zero := decide (c.address o = 0) }
  | .pshs => c.push o
  | .sex => (c.setD (c.b.signExtend 16)).test (c.b.signExtend 16)
  | .lbsr => match o with
    | .routine f => c.routine f
    | _ => c
  -- These are no lines of the 6809, or none without an address.
  | .lsl | .asr | .lsr | .tba | .tab | .xgdx | .xgdy => c

def execLines (code : List Line) (c : Cpu) : Cpu := code.foldl execLine c

/-! ## What the helpers print -/

def Inst.line : Inst → Line
  | .clra => plain .clra
  | .clrb => plain .clrb
  | .ldd n => immediate .ldd n.toNat
  | .lda n => immediate .lda n.toNat
  | .ldb n => immediate .ldb n.toNat
  | .tfrBA => ⟨.tfr, .pair .b .a⟩
  | .tfrAB => ⟨.tfr, .pair .a .b⟩
  | .tba => plain .tba
  | .tab => plain .tab
  | .addd n => immediate .addd n.toNat
  | .adda n => immediate .adda n.toNat
  | .addb n => immediate .addb n.toNat
  | .adca n => immediate .adca n.toNat
  | .exgDY => ⟨.exg, .pair .d .y⟩
  | .exgDX => ⟨.exg, .pair .d .x⟩
  | .xgdy => plain .xgdy
  | .xgdx => plain .xgdx
  | .lslb => plain .lslb
  | .rola => plain .rola
  | .asra => plain .asra
  | .asrb => plain .asrb
  | .lsra => plain .lsra
  | .lsrb => plain .lsrb
  | .rorb => plain .rorb
  | .bare .lsl => plain .lsl
  | .bare .asr => plain .asr
  | .bare .lsr => plain .lsr

/-- A routine of the code generator that prints lines. -/
abbrev Printer := Track → List Line × Track

def Printer.andThen (f g : Printer) : Printer := fun t =>
  let (code, t) := f t
  let (code', t) := g t
  (code ++ code', t)

def printf (code : List Line) : Printer := fun t => (code, t)

def note (f : Track → Track) : Printer := fun t => ([], f t)

def Helper.print (f : Helper) : Printer := fun t => ((f t).1.map Inst.line, (f t).2)

end Fuzemsys.Fcc.Code6800
