import Fuzemsys.Fcc.Exec6809
import Fuzemsys.Lib.LinkedCode

/-!
# The machine under the routines of support6809

Lines of the routines, and what they do. The variables of dp.s are kept apart from the
memory: they are reached by direct addressing only.
-/

open Fuzemsys.Lib

namespace Fuzemsys.Fcc.Runtime

open Code6800 (Reg Cpu carryBit hiByte loByte)

/-! ## Lines -/

inductive Mnemonic where
  | lda
  | ldb
  | ldd
  | ldx
  | ldy
  | sta
  | stb
  | std
  | stx
  | sty
  | leas
  | leax
  | leay
  | addb
  | addd
  | adca
  | subd
  | sbca
  | sbcb
  | cmpb
  | cmpd
  | cmpy
  | bita
  | clra
  | clrb
  | clr
  | coma
  | comb
  | com
  | inc
  | dec
  | lslb
  | rola
  | rolb
  | rol
  | rorb
  | mul
  | tfr
  | exg
  | pshs
  | puls
  | tstb
  | orcc
  deriving DecidableEq, Repr

/-- The words of dp.s that the routines use. -/
inductive Direct where
  | one
  | tmp
  | tmp2
  | tmp3
  | tmp4
  deriving DecidableEq, Repr

/-- From the start of dp.s. `hireg` is a word and `zero` a byte. -/
def Direct.offset : Direct → Nat
  | one => 3
  | tmp => 5
  | tmp2 => 7
  | tmp3 => 9
  | tmp4 => 11

inductive Operand where
  | none
  /-- `#n` -/
  | imm (n : Nat)
  /-- `n,r` -/
  | index (n : Int) (r : Reg)
  /-- `,r+` -/
  | postInc (r : Reg)
  /-- `,r++` -/
  | postInc2 (r : Reg)
  /-- `,-r` -/
  | preDec (r : Reg)
  /-- `,--r` -/
  | preDec2 (r : Reg)
  /-- `@w+n` -/
  | direct (w : Direct) (n : Nat)
  | pair (r r' : Reg)
  | list (r : Reg)
  deriving DecidableEq, Repr

structure Line where
  mnemonic : Mnemonic
  operand : Operand
  deriving DecidableEq, Repr

/-- The conditions of the branches: `bra`, `beq`, `bne`, `bcc`, `bhi`, `blo`, `bgt`, `blt`, `bmi`, `bpl`. -/
inductive Cond where
  | ra
  | eq
  | ne
  | cc
  | hi
  | lo
  | gt
  | lt
  | mi
  | pl
  deriving DecidableEq, Repr

/-! ## The machine -/

structure State extends Cpu where
  /-- The bytes of dp.s. -/
  page : Nat → Byte

namespace State

variable (s : State)

def on (f : Cpu → Cpu) : State := { s with toCpu := f s.toCpu }

/-- Where an operand lies in memory. -/
def address : Operand → BitVec 16
  | .index n r => s.index r + BitVec.ofInt 16 n
  | .postInc r => s.index r
  | .postInc2 r => s.index r
  | .preDec r => s.index r + BitVec.ofInt 16 (-1)
  | .preDec2 r => s.index r + BitVec.ofInt 16 (-2)
  | _ => 0

/-- What is left of the register of an operand. -/
def advance : Operand → State
  | .postInc r => s.on fun c => c.setIndex r (c.index r + BitVec.ofInt 16 1)
  | .postInc2 r => s.on fun c => c.setIndex r (c.index r + BitVec.ofInt 16 2)
  | .preDec r => s.on fun c => c.setIndex r (c.index r + BitVec.ofInt 16 (-1))
  | .preDec2 r => s.on fun c => c.setIndex r (c.index r + BitVec.ofInt 16 (-2))
  | _ => s

def byteOf : Operand → Byte
  | .imm n => BitVec.ofNat 8 n
  | .direct w n => s.page (w.offset + n)
  | o => s.mem (s.address o)

/-- The high byte is first. -/
def wordOf : Operand → BitVec 16
  | .imm n => BitVec.ofNat 16 n
  | .direct w n => s.page (w.offset + n) ++ s.page (w.offset + n + 1)
  | o => s.mem (s.address o) ++ s.mem (s.address o + 1)

def putByte (v : Byte) : Operand → State
  | .direct w n => { s with page := fun i => if i = w.offset + n then v else s.page i }
  | o => { s.advance o with mem := fun i => if i = s.address o then v else s.mem i }

def putWord (v : BitVec 16) : Operand → State
  | .direct w n =>
    let page i := if i = w.offset + n then hiByte v else if i = w.offset + n + 1 then loByte v else s.page i
    { s with page := page }
  | o =>
    let mem i := if i = s.address o then hiByte v else if i = s.address o + 1 then loByte v else s.mem i
    { s.advance o with mem := mem }

/-- Of a difference with a borrow. -/
def borrowFlags {n : Nat} (x y : BitVec n) (carry : Bool) : State :=
  let r := x - y - (carryBit carry).setWidth n
  let exact := x.toInt - y.toInt - (carryBit carry).toNat
  { s with
    negative := r.msb
    zero := decide (r = 0)
    overflow := decide (exact < -2 ^ (n - 1) ∨ 2 ^ (n - 1) ≤ exact)
    carry := decide (x.toNat < y.toNat + (carryBit carry).toNat) }

def transfer : Operand → State
  | .pair .d .x => { s with x := s.d }
  | .pair .x .d => s.on fun c => c.setD c.x
  | .pair .y .d => s.on fun c => c.setD c.y
  | .pair .b .a => { s with a := s.b }
  | .pair .s .x => { s with x := s.s }
  | _ => s

def exchange : Operand → State
  | .pair .d .x => s.on fun c => { c.setD c.x with x := c.d }
  | .pair .d .y => s.on fun c => { c.setD c.y with y := c.d }
  | _ => s

def push (v : BitVec 16) : State := s.putWord v (.preDec2 .s)

def pull : BitVec 16 × State := (s.wordOf (.postInc2 .s), s.advance (.postInc2 .s))

/-- A shift up that takes in the carry. -/
def rotate (v : Byte) (carry : Bool) : Byte × State :=
  let r := v <<< 1 ||| carryBit carry
  (r, s.on fun c => { c.test r with carry := v.msb, overflow := v.msb != r.msb })

end State

def exec (l : Line) (s : State) : State :=
  let o := l.operand
  let m := s.byteOf o
  let w := s.wordOf o
  let s' := s.advance o
  match l.mnemonic with
  | .lda => s'.on fun c => { c with a := m }.test m
  | .ldb => s'.on fun c => { c with b := m }.test m
  | .ldd => s'.on fun c => (c.setD w).test w
  | .ldx => s'.on fun c => { c with x := w }.test w
  | .ldy => s'.on fun c => { c with y := w }.test w
  | .sta => (s.putByte s.a o).on fun c => c.test s.a
  | .stb => (s.putByte s.b o).on fun c => c.test s.b
  | .std => (s.putWord s.d o).on fun c => c.test s.d
  | .stx => (s.putWord s.x o).on fun c => c.test s.x
  | .sty => (s.putWord s.y o).on fun c => c.test s.y
  | .leas => { s with s := s.address o }
  | .leax => { s with x := s.address o, zero := decide (s.address o = 0) }
  | .leay => { s with y := s.address o, zero := decide (s.address o = 0) }
  | .addb => s'.on fun c => { c with b := s.b + m }.sumFlags s.b m false
  | .addd => s'.on fun c => (c.setD (s.d + w)).sumFlags s.d w false
  | .adca => s'.on fun c => { c with a := s.a + m + carryBit s.carry }.sumFlags s.a m s.carry
  | .subd => s'.on fun c => (c.setD (s.d - w)).differenceFlags s.d w
  | .sbca => { s' with a := s.a - m - carryBit s.carry }.borrowFlags s.a m s.carry
  | .sbcb => { s' with b := s.b - m - carryBit s.carry }.borrowFlags s.b m s.carry
  | .cmpb => s'.on fun c => c.differenceFlags s.b m
  | .cmpd => s'.on fun c => c.differenceFlags s.d w
  | .cmpy => s'.on fun c => c.differenceFlags s.y w
  | .bita => s'.on fun c => c.test (s.a &&& m)
  | .clra => { s with a := 0, negative := false, zero := true, overflow := false, carry := false }
  | .clrb => { s with b := 0, negative := false, zero := true, overflow := false, carry := false }
  | .clr => { s.putByte 0 o with negative := false, zero := true, overflow := false, carry := false }
  | .coma => s.on fun c => { { c with a := ~~~s.a }.test (~~~s.a) with carry := true }
  | .comb => s.on fun c => { { c with b := ~~~s.b }.test (~~~s.b) with carry := true }
  | .com => (s.putByte (~~~m) o).on fun c => { c.test (~~~m) with carry := true }
  | .inc => (s.putByte (m + 1) o).on fun c => { c.test (m + 1) with overflow := decide (m = 0x7F) }
  | .dec => (s.putByte (m - 1) o).on fun c => { c.test (m - 1) with overflow := decide (m = 0x80) }
  | .lslb => { (s.rotate s.b false).2 with b := (s.rotate s.b false).1 }
  | .rola => { (s.rotate s.a s.carry).2 with a := (s.rotate s.a s.carry).1 }
  | .rolb => { (s.rotate s.b s.carry).2 with b := (s.rotate s.b s.carry).1 }
  | .rol => (s.rotate m s.carry).2.putByte (s.rotate m s.carry).1 o
  | .rorb =>
    let r := carryBit s.carry <<< 7 ||| s.b >>> 1
    s.on fun c => { { c with b := r }.test r with carry := s.b.getLsbD 0, overflow := s.overflow }
  | .mul =>
    let r := s.a.setWidth 16 * s.b.setWidth 16
    s.on fun c => { c.setD r with zero := decide (r = 0), carry := r.getLsbD 7 }
  | .tfr => s.transfer o
  | .exg => s.exchange o
  | .pshs => match o with
    | .list .d => s.push s.d
    | .list .x => s.push s.x
    | .list .y => s.push s.y
    | _ => s
  | .puls => match o with
    | .list .d => s.pull.2.on fun c => c.setD s.pull.1
    | .list .x => { s.pull.2 with x := s.pull.1 }
    | _ => s
  | .tstb => s.on fun c => c.test s.b
  -- only `orcc #1`
  | .orcc => { s with carry := true }

def holds (p : Cond) (s : State) : Bool :=
  match p with
  | .ra => true
  | .eq => s.zero
  | .ne => !s.zero
  | .cc => !s.carry
  | .hi => !s.carry && !s.zero
  | .lo => s.carry
  | .gt => !s.zero && s.negative == s.overflow
  | .lt => s.negative != s.overflow
  | .mi => s.negative
  | .pl => !s.negative

def mc6809 : Processor (BitVec 16) Line Cond State where
  exec := exec
  holds := holds
  push := fun a s => s.push a
  target := fun s => s.x
  pull := State.pull

/-! ## Files and labels -/

inductive File where
  | __cceql
  | __ccnel
  | __ccltl
  | __ccgtl
  | __cclteql
  | __ccgteql
  | __switchc
  | __switch
  | __switchl
  | __mul
  | divide
  | __div
  | __divu
  | __xdiveq
  | __negatel
  | __minusl
  | __mull
  | divide32x32
  | __divul
  | __remul
  | __divl
  | __reml
  | __xdiveql
  | __xmuleql
  deriving DecidableEq, Repr

/-- The names of the labels. `yes` and `no` stand for `true` and `false`. -/
inductive Name where
  | __cceql
  | __ccnel
  | __ccltl
  | __ccltul
  | __ccgtl
  | __ccgtul
  | __cclteql
  | __ccltequl
  | __ccgteql
  | __ccgtequl
  | __switchc
  | __switch
  | __switchl
  | __mul
  | div16x16
  | __rem
  | __div
  | __divu
  | __remu
  | __xremeq
  | __xdiveq
  | __negatel
  | __minusl
  | __mull
  | __mulul
  | div32x32
  | __divul
  | __remul
  | __divl
  | __reml
  | __xdiveql
  | __xmuleql
  | __xmulequl
  | cclow
  | yes
  | no
  | out
  | next
  | gotit
  | moveon
  | bump
  | loop
  | skip
  | done
  | pop2
  | negmod
  | absd
  | negd
  | ispos
  | store
  | nocarry
  | norip16
  | is_done
  | nosignfix
  | nosignfix2
  | nosignfix3
  | pop4
  deriving DecidableEq, Repr

structure Label where
  file : File
  name : Name
  deriving DecidableEq, Repr

abbrev Code := List (Lib.Item Label Line Cond)

abbrev Linked := Image (BitVec 16) Label Line Cond

def op (m : Mnemonic) (o : Operand) : Lib.Item Label Line Cond := .line ⟨m, o⟩

end Fuzemsys.Fcc.Runtime
