import Mathlib.Data.BitVec
import Fuzemsys.Lib.Printf
import Fuzemsys.Emulators.Memory

/-!
# The 6809 disassembler

`d6809_disassemble` with its three opcode tables. The disassembler is shared with
the 6309: what the two have different is in a `Dialect`. It writes one line of text
and returns how many bytes the instruction takes.
-/

namespace Fuzemsys.Emulators.D6809

open Fuzemsys.Emulators Fuzemsys.Lib

/-! ## Addressing modes and mnemonics -/

inductive AddrMode where
  | nom
  | imp
  | imb
  | imw
  | dir
  | ext
  | ind
  | reb
  | rew
  | r1
  | r2
  | r3
  | bd
  | bi
  | be
  | bt
  | t1
  | t2
  | t3
  | t4
  | iml
  deriving DecidableEq, Repr

/-- The opcodes of the 6809. -/
inductive Opcode where
  | ill | abx | adca | adcb | adda | addb | addd | anda | andb | andcc | asla | aslb | asl | asra
  | asrb | asr | bcc | lbcc | bcs | lbcs | beq | lbeq | bge | lbge | bgt | lbgt | bhi | lbhi | bita
  | bitb | ble | lble | bls | lbls | blt | lblt | bmi | lbmi | bne | lbne | bpl | lbpl | bra | lbra
  | brn | lbrn | bsr | lbsr | bvc | lbvc | bvs | lbvs | clra | clrb | clr | cmpa | cmpb | cmpd
  | cmps | cmpu | cmpx | cmpy | coma | comb | com | cwai | daa | deca | decb | dec | eora | eorb
  | exg | inca | incb | inc | jmp | jsr | lda | ldb | ldd | lds | ldu | ldx | ldy | leas | leau
  | leax | leay | lsra | lsrb | lsr | mul | nega | negb | neg | nop | ora | orb | orcc | pshs
  | pshu | puls | pulu | rola | rolb | rol | rora | rorb | ror | rti | rts | sbca | sbcb | sex
  | sta | stb | std | sts | stu | stx | sty | suba | subb | subd | swi | swi2 | swi3 | sync | tfr
  | tsta | tstb | tst | reset
  deriving DecidableEq

def mne : Opcode → String
  | .ill => "???" | .abx => "ABX" | .adca => "ADCA" | .adcb => "ADCB" | .adda => "ADDA"
  | .addb => "ADDB" | .addd => "ADDD" | .anda => "ANDA" | .andb => "ANDB" | .andcc => "ANDCC"
  | .asla => "ASLA" | .aslb => "ASLB" | .asl => "ASL" | .asra => "ASRA" | .asrb => "ASRB"
  | .asr => "ASR" | .bcc => "BCC" | .lbcc => "LBCC" | .bcs => "BCS" | .lbcs => "LBCS"
  | .beq => "BEQ" | .lbeq => "LBEQ" | .bge => "BGE" | .lbge => "LBGE" | .bgt => "BGT"
  | .lbgt => "LBGT" | .bhi => "BHI" | .lbhi => "LBHI" | .bita => "BITA" | .bitb => "BITB"
  | .ble => "BLE" | .lble => "LBLE" | .bls => "BLS" | .lbls => "LBLS" | .blt => "BLT"
  | .lblt => "LBLT" | .bmi => "BMI" | .lbmi => "LBMI" | .bne => "BNE" | .lbne => "LBNE"
  | .bpl => "BPL" | .lbpl => "LBPL" | .bra => "BRA" | .lbra => "LBRA" | .brn => "BRN"
  | .lbrn => "LBRN" | .bsr => "BSR" | .lbsr => "LBSR" | .bvc => "BVC" | .lbvc => "LBVC"
  | .bvs => "BVS" | .lbvs => "LBVS" | .clra => "CLRA" | .clrb => "CLRB" | .clr => "CLR"
  | .cmpa => "CMPA" | .cmpb => "CMPB" | .cmpd => "CMPD" | .cmps => "CMPS" | .cmpu => "CMPU"
  | .cmpx => "CMPX" | .cmpy => "CMPY" | .coma => "COMA" | .comb => "COMB" | .com => "COM"
  | .cwai => "CWAI" | .daa => "DAA" | .deca => "DECA" | .decb => "DECB" | .dec => "DEC"
  | .eora => "EORA" | .eorb => "EORB" | .exg => "EXG" | .inca => "INCA" | .incb => "INCB"
  | .inc => "INC" | .jmp => "JMP" | .jsr => "JSR" | .lda => "LDA" | .ldb => "LDB" | .ldd => "LDD"
  | .lds => "LDS" | .ldu => "LDU" | .ldx => "LDX" | .ldy => "LDY" | .leas => "LEAS"
  | .leau => "LEAU" | .leax => "LEAX" | .leay => "LEAY" | .lsra => "LSRA" | .lsrb => "LSRB"
  | .lsr => "LSR" | .mul => "MUL" | .nega => "NEGA" | .negb => "NEGB" | .neg => "NEG"
  | .nop => "NOP" | .ora => "ORA" | .orb => "ORB" | .orcc => "ORCC" | .pshs => "PSHS"
  | .pshu => "PSHU" | .puls => "PULS" | .pulu => "PULU" | .rola => "ROLA" | .rolb => "ROLB"
  | .rol => "ROL" | .rora => "RORA" | .rorb => "RORB" | .ror => "ROR" | .rti => "RTI"
  | .rts => "RTS" | .sbca => "SBCA" | .sbcb => "SBCB" | .sex => "SEX" | .sta => "STA"
  | .stb => "STB" | .std => "STD" | .sts => "STS" | .stu => "STU" | .stx => "STX" | .sty => "STY"
  | .suba => "SUBA" | .subb => "SUBB" | .subd => "SUBD" | .swi => "SWI" | .swi2 => "SWI2"
  | .swi3 => "SWI3" | .sync => "SYNC" | .tfr => "TFR" | .tsta => "TSTA" | .tstb => "TSTB"
  | .tst => "TST" | .reset => "RESET"

/-! ## Opcode tables -/

def m6809Codes : List (Opcode × AddrMode) := [
  (.neg, .dir), (.ill, .nom), (.ill, .nom), (.com, .dir), (.lsr, .dir), (.ill, .nom), (.ror, .dir), (.asr, .dir),
  (.asl, .dir), (.rol, .dir), (.dec, .dir), (.ill, .nom), (.inc, .dir), (.tst, .dir), (.jmp, .dir), (.clr, .dir),
  (.ill, .nom), (.ill, .nom), (.nop, .imp), (.sync, .imp), (.ill, .nom), (.ill, .nom), (.lbra, .rew), (.lbsr, .rew),
  (.ill, .nom), (.daa, .imp), (.orcc, .imb), (.ill, .nom), (.andcc, .imb), (.sex, .imp), (.exg, .r1), (.tfr, .r1),
  (.bra, .reb), (.brn, .reb), (.bhi, .reb), (.bls, .reb), (.bcc, .reb), (.bcs, .reb), (.bne, .reb), (.beq, .reb),
  (.bvc, .reb), (.bvs, .reb), (.bpl, .reb), (.bmi, .reb), (.bge, .reb), (.blt, .reb), (.bgt, .reb), (.ble, .reb),
  (.leax, .ind), (.leay, .ind), (.leas, .ind), (.leau, .ind), (.pshs, .r2), (.puls, .r2), (.pshu, .r3), (.pulu, .r3),
  (.ill, .nom), (.rts, .imp), (.abx, .imp), (.rti, .imp), (.cwai, .imb), (.mul, .imp), (.reset, .imp), (.swi, .imp),
  (.nega, .imp), (.ill, .nom), (.ill, .nom), (.coma, .imp), (.lsra, .imp), (.ill, .nom), (.rora, .imp), (.asra, .imp),
  (.asla, .imp), (.rola, .imp), (.deca, .imp), (.ill, .nom), (.inca, .imp), (.tsta, .imp), (.ill, .nom), (.clra, .imp),
  (.negb, .imp), (.ill, .nom), (.ill, .nom), (.comb, .imp), (.lsrb, .imp), (.ill, .nom), (.rorb, .imp), (.asrb, .imp),
  (.aslb, .imp), (.rolb, .imp), (.decb, .imp), (.ill, .nom), (.incb, .imp), (.tstb, .imp), (.ill, .nom), (.clrb, .imp),
  (.neg, .ind), (.ill, .nom), (.ill, .nom), (.com, .ind), (.lsr, .ind), (.ill, .nom), (.ror, .ind), (.asr, .ind),
  (.asl, .ind), (.rol, .ind), (.dec, .ind), (.ill, .nom), (.inc, .ind), (.tst, .ind), (.jmp, .ind), (.clr, .ind),
  (.neg, .ext), (.ill, .nom), (.ill, .nom), (.com, .ext), (.lsr, .ext), (.ill, .nom), (.ror, .ext), (.asr, .ext),
  (.asl, .ext), (.rol, .ext), (.dec, .ext), (.ill, .nom), (.inc, .ext), (.tst, .ext), (.jmp, .ext), (.clr, .ext),
  (.suba, .imb), (.cmpa, .imb), (.sbca, .imb), (.subd, .imw), (.anda, .imb), (.bita, .imb), (.lda, .imb), (.ill, .nom),
  (.eora, .imb), (.adca, .imb), (.ora, .imb), (.adda, .imb), (.cmpx, .imw), (.bsr, .reb), (.ldx, .imw), (.ill, .nom),
  (.suba, .dir), (.cmpa, .dir), (.sbca, .dir), (.subd, .dir), (.anda, .dir), (.bita, .dir), (.lda, .dir), (.sta, .dir),
  (.eora, .dir), (.adca, .dir), (.ora, .dir), (.adda, .dir), (.cmpx, .dir), (.jsr, .dir), (.ldx, .dir), (.stx, .dir),
  (.suba, .ind), (.cmpa, .ind), (.sbca, .ind), (.subd, .ind), (.anda, .ind), (.bita, .ind), (.lda, .ind), (.sta, .ind),
  (.eora, .ind), (.adca, .ind), (.ora, .ind), (.adda, .ind), (.cmpx, .ind), (.jsr, .ind), (.ldx, .ind), (.stx, .ind),
  (.suba, .ext), (.cmpa, .ext), (.sbca, .ext), (.subd, .ext), (.anda, .ext), (.bita, .ext), (.lda, .ext), (.sta, .ext),
  (.eora, .ext), (.adca, .ext), (.ora, .ext), (.adda, .ext), (.cmpx, .ext), (.jsr, .ext), (.ldx, .ext), (.stx, .ext),
  (.subb, .imb), (.cmpb, .imb), (.sbcb, .imb), (.addd, .imw), (.andb, .imb), (.bitb, .imb), (.ldb, .imb), (.ill, .nom),
  (.eorb, .imb), (.adcb, .imb), (.orb, .imb), (.addb, .imb), (.ldd, .imw), (.ill, .nom), (.ldu, .imw), (.ill, .nom),
  (.subb, .dir), (.cmpb, .dir), (.sbcb, .dir), (.addd, .dir), (.andb, .dir), (.bitb, .dir), (.ldb, .dir), (.stb, .dir),
  (.eorb, .dir), (.adcb, .dir), (.orb, .dir), (.addb, .dir), (.ldd, .dir), (.std, .dir), (.ldu, .dir), (.stu, .dir),
  (.subb, .ind), (.cmpb, .ind), (.sbcb, .ind), (.addd, .ind), (.andb, .ind), (.bitb, .ind), (.ldb, .ind), (.stb, .ind),
  (.eorb, .ind), (.adcb, .ind), (.orb, .ind), (.addb, .ind), (.ldd, .ind), (.std, .ind), (.ldu, .ind), (.stu, .ind),
  (.subb, .ext), (.cmpb, .ext), (.sbcb, .ext), (.addd, .ext), (.andb, .ext), (.bitb, .ext), (.ldb, .ext), (.stb, .ext),
  (.eorb, .ext), (.adcb, .ext), (.orb, .ext), (.addb, .ext), (.ldd, .ext), (.std, .ext), (.ldu, .ext), (.stu, .ext)]

def m6809Codes10 : List (Opcode × AddrMode) := [
  (.ill, .nom), (.ill, .nom), (.ill, .nom), (.ill, .nom), (.ill, .nom), (.ill, .nom), (.ill, .nom), (.ill, .nom),
  (.ill, .nom), (.ill, .nom), (.ill, .nom), (.ill, .nom), (.ill, .nom), (.ill, .nom), (.ill, .nom), (.ill, .nom),
  (.ill, .nom), (.ill, .nom), (.ill, .nom), (.ill, .nom), (.ill, .nom), (.ill, .nom), (.ill, .nom), (.ill, .nom),
  (.ill, .nom), (.ill, .nom), (.ill, .nom), (.ill, .nom), (.ill, .nom), (.ill, .nom), (.ill, .nom), (.ill, .nom),
  (.ill, .nom), (.lbrn, .rew), (.lbhi, .rew), (.lbls, .rew), (.lbcc, .rew), (.lbcs, .rew), (.lbne, .rew), (.lbeq, .rew),
  (.lbvc, .rew), (.lbvs, .rew), (.lbpl, .rew), (.lbmi, .rew), (.lbge, .rew), (.lblt, .rew), (.lbgt, .rew), (.lble, .rew),
  (.ill, .nom), (.ill, .nom), (.ill, .nom), (.ill, .nom), (.ill, .nom), (.ill, .nom), (.ill, .nom), (.ill, .nom),
  (.ill, .nom), (.ill, .nom), (.ill, .nom), (.ill, .nom), (.ill, .nom), (.ill, .nom), (.ill, .nom), (.swi2, .imp),
  (.ill, .nom), (.ill, .nom), (.ill, .nom), (.ill, .nom), (.ill, .nom), (.ill, .nom), (.ill, .nom), (.ill, .nom),
  (.ill, .nom), (.ill, .nom), (.ill, .nom), (.ill, .nom), (.ill, .nom), (.ill, .nom), (.ill, .nom), (.ill, .nom),
  (.ill, .nom), (.ill, .nom), (.ill, .nom), (.ill, .nom), (.ill, .nom), (.ill, .nom), (.ill, .nom), (.ill, .nom),
  (.ill, .nom), (.ill, .nom), (.ill, .nom), (.ill, .nom), (.ill, .nom), (.ill, .nom), (.ill, .nom), (.ill, .nom),
  (.ill, .nom), (.ill, .nom), (.ill, .nom), (.ill, .nom), (.ill, .nom), (.ill, .nom), (.ill, .nom), (.ill, .nom),
  (.ill, .nom), (.ill, .nom), (.ill, .nom), (.ill, .nom), (.ill, .nom), (.ill, .nom), (.ill, .nom), (.ill, .nom),
  (.ill, .nom), (.ill, .nom), (.ill, .nom), (.ill, .nom), (.ill, .nom), (.ill, .nom), (.ill, .nom), (.ill, .nom),
  (.ill, .nom), (.ill, .nom), (.ill, .nom), (.ill, .nom), (.ill, .nom), (.ill, .nom), (.ill, .nom), (.ill, .nom),
  (.ill, .nom), (.ill, .nom), (.ill, .nom), (.cmpd, .imw), (.ill, .nom), (.ill, .nom), (.ill, .nom), (.ill, .nom),
  (.ill, .nom), (.ill, .nom), (.ill, .nom), (.ill, .nom), (.cmpy, .imw), (.ill, .nom), (.ldy, .imw), (.ill, .nom),
  (.ill, .nom), (.ill, .nom), (.ill, .nom), (.cmpd, .dir), (.ill, .nom), (.ill, .nom), (.ill, .nom), (.ill, .nom),
  (.ill, .nom), (.ill, .nom), (.ill, .nom), (.ill, .nom), (.cmpy, .dir), (.ill, .nom), (.ldy, .dir), (.sty, .dir),
  (.ill, .nom), (.ill, .nom), (.ill, .nom), (.cmpd, .ind), (.ill, .nom), (.ill, .nom), (.ill, .nom), (.ill, .nom),
  (.ill, .nom), (.ill, .nom), (.ill, .nom), (.ill, .nom), (.cmpy, .ind), (.ill, .nom), (.ldy, .ind), (.sty, .ind),
  (.ill, .nom), (.ill, .nom), (.ill, .nom), (.cmpd, .ext), (.ill, .nom), (.ill, .nom), (.ill, .nom), (.ill, .nom),
  (.ill, .nom), (.ill, .nom), (.ill, .nom), (.ill, .nom), (.cmpy, .ext), (.ill, .nom), (.ldy, .ext), (.sty, .ext),
  (.ill, .nom), (.ill, .nom), (.ill, .nom), (.ill, .nom), (.ill, .nom), (.ill, .nom), (.ill, .nom), (.ill, .nom),
  (.ill, .nom), (.ill, .nom), (.ill, .nom), (.ill, .nom), (.ill, .nom), (.ill, .nom), (.lds, .imw), (.ill, .nom),
  (.ill, .nom), (.ill, .nom), (.ill, .nom), (.ill, .nom), (.ill, .nom), (.ill, .nom), (.ill, .nom), (.ill, .nom),
  (.ill, .nom), (.ill, .nom), (.ill, .nom), (.ill, .nom), (.ill, .nom), (.ill, .nom), (.lds, .dir), (.sts, .dir),
  (.ill, .nom), (.ill, .nom), (.ill, .nom), (.ill, .nom), (.ill, .nom), (.ill, .nom), (.ill, .nom), (.ill, .nom),
  (.ill, .nom), (.ill, .nom), (.ill, .nom), (.ill, .nom), (.ill, .nom), (.ill, .nom), (.lds, .ind), (.sts, .ind),
  (.ill, .nom), (.ill, .nom), (.ill, .nom), (.ill, .nom), (.ill, .nom), (.ill, .nom), (.ill, .nom), (.ill, .nom),
  (.ill, .nom), (.ill, .nom), (.ill, .nom), (.ill, .nom), (.ill, .nom), (.ill, .nom), (.lds, .ext), (.sts, .ext)]

def m6809Codes11 : List (Opcode × AddrMode) := [
  (.ill, .nom), (.ill, .nom), (.ill, .nom), (.ill, .nom), (.ill, .nom), (.ill, .nom), (.ill, .nom), (.ill, .nom),
  (.ill, .nom), (.ill, .nom), (.ill, .nom), (.ill, .nom), (.ill, .nom), (.ill, .nom), (.ill, .nom), (.ill, .nom),
  (.ill, .nom), (.ill, .nom), (.ill, .nom), (.ill, .nom), (.ill, .nom), (.ill, .nom), (.ill, .nom), (.ill, .nom),
  (.ill, .nom), (.ill, .nom), (.ill, .nom), (.ill, .nom), (.ill, .nom), (.ill, .nom), (.ill, .nom), (.ill, .nom),
  (.ill, .nom), (.ill, .nom), (.ill, .nom), (.ill, .nom), (.ill, .nom), (.ill, .nom), (.ill, .nom), (.ill, .nom),
  (.ill, .nom), (.ill, .nom), (.ill, .nom), (.ill, .nom), (.ill, .nom), (.ill, .nom), (.ill, .nom), (.ill, .nom),
  (.ill, .nom), (.ill, .nom), (.ill, .nom), (.ill, .nom), (.ill, .nom), (.ill, .nom), (.ill, .nom), (.ill, .nom),
  (.ill, .nom), (.ill, .nom), (.ill, .nom), (.ill, .nom), (.ill, .nom), (.ill, .nom), (.ill, .nom), (.swi3, .imp),
  (.ill, .nom), (.ill, .nom), (.ill, .nom), (.ill, .nom), (.ill, .nom), (.ill, .nom), (.ill, .nom), (.ill, .nom),
  (.ill, .nom), (.ill, .nom), (.ill, .nom), (.ill, .nom), (.ill, .nom), (.ill, .nom), (.ill, .nom), (.ill, .nom),
  (.ill, .nom), (.ill, .nom), (.ill, .nom), (.ill, .nom), (.ill, .nom), (.ill, .nom), (.ill, .nom), (.ill, .nom),
  (.ill, .nom), (.ill, .nom), (.ill, .nom), (.ill, .nom), (.ill, .nom), (.ill, .nom), (.ill, .nom), (.ill, .nom),
  (.ill, .nom), (.ill, .nom), (.ill, .nom), (.ill, .nom), (.ill, .nom), (.ill, .nom), (.ill, .nom), (.ill, .nom),
  (.ill, .nom), (.ill, .nom), (.ill, .nom), (.ill, .nom), (.ill, .nom), (.ill, .nom), (.ill, .nom), (.ill, .nom),
  (.ill, .nom), (.ill, .nom), (.ill, .nom), (.ill, .nom), (.ill, .nom), (.ill, .nom), (.ill, .nom), (.ill, .nom),
  (.ill, .nom), (.ill, .nom), (.ill, .nom), (.ill, .nom), (.ill, .nom), (.ill, .nom), (.ill, .nom), (.ill, .nom),
  (.ill, .nom), (.ill, .nom), (.ill, .nom), (.cmpu, .imw), (.ill, .nom), (.ill, .nom), (.ill, .nom), (.ill, .nom),
  (.ill, .nom), (.ill, .nom), (.ill, .nom), (.ill, .nom), (.cmps, .imw), (.ill, .nom), (.ill, .nom), (.ill, .nom),
  (.ill, .nom), (.ill, .nom), (.ill, .nom), (.cmpu, .dir), (.ill, .nom), (.ill, .nom), (.ill, .nom), (.ill, .nom),
  (.ill, .nom), (.ill, .nom), (.ill, .nom), (.ill, .nom), (.cmps, .dir), (.ill, .nom), (.ill, .nom), (.ill, .nom),
  (.ill, .nom), (.ill, .nom), (.ill, .nom), (.cmpu, .ind), (.ill, .nom), (.ill, .nom), (.ill, .nom), (.ill, .nom),
  (.ill, .nom), (.ill, .nom), (.ill, .nom), (.ill, .nom), (.cmps, .ind), (.ill, .nom), (.ill, .nom), (.ill, .nom),
  (.ill, .nom), (.ill, .nom), (.ill, .nom), (.cmpu, .ext), (.ill, .nom), (.ill, .nom), (.ill, .nom), (.ill, .nom),
  (.ill, .nom), (.ill, .nom), (.ill, .nom), (.ill, .nom), (.cmps, .ext), (.ill, .nom), (.ill, .nom), (.ill, .nom),
  (.ill, .nom), (.ill, .nom), (.ill, .nom), (.ill, .nom), (.ill, .nom), (.ill, .nom), (.ill, .nom), (.ill, .nom),
  (.ill, .nom), (.ill, .nom), (.ill, .nom), (.ill, .nom), (.ill, .nom), (.ill, .nom), (.ill, .nom), (.ill, .nom),
  (.ill, .nom), (.ill, .nom), (.ill, .nom), (.ill, .nom), (.ill, .nom), (.ill, .nom), (.ill, .nom), (.ill, .nom),
  (.ill, .nom), (.ill, .nom), (.ill, .nom), (.ill, .nom), (.ill, .nom), (.ill, .nom), (.ill, .nom), (.ill, .nom),
  (.ill, .nom), (.ill, .nom), (.ill, .nom), (.ill, .nom), (.ill, .nom), (.ill, .nom), (.ill, .nom), (.ill, .nom),
  (.ill, .nom), (.ill, .nom), (.ill, .nom), (.ill, .nom), (.ill, .nom), (.ill, .nom), (.ill, .nom), (.ill, .nom),
  (.ill, .nom), (.ill, .nom), (.ill, .nom), (.ill, .nom), (.ill, .nom), (.ill, .nom), (.ill, .nom), (.ill, .nom),
  (.ill, .nom), (.ill, .nom), (.ill, .nom), (.ill, .nom), (.ill, .nom), (.ill, .nom), (.ill, .nom), (.ill, .nom)]

/-! ## Reading the instruction -/

/-- The locations that act like system calls read as 0xFF. -/
def e6809Read8Debug (m : Mem) (addr : BitVec 32) : BitVec 8 :=
  if addr < 0xFE00 ∨ addr ≥ 0xFF00 then m.ram (addr.setWidth 16) else 0xFF

def argWord (m : Mem) (x : BitVec 16) : BitVec 16 :=
  let r := (e6809Read8Debug m (x.setWidth 32)).setWidth 16 <<< 8
  r ||| (e6809Read8Debug m (x.setWidth 32 + 1)).setWidth 16

def byteText (m : Mem) (pc : BitVec 32) : String := "$" ++ hexUpper 2 (e6809Read8Debug m pc).toNat

def wordText (m : Mem) (pc : BitVec 32) : String := "$" ++ hexUpper 4 (argWord m (pc.setWidth 16)).toNat

/-! ## The disassembler proper -/

structure Dialect where
  codes : List (Opcode × AddrMode)
  codes10 : List (Opcode × AddrMode)
  codes11 : List (Opcode × AddrMode)
  exgTfr : List String
  allow6309Codes : Bool

def m6809ExgTfr : List String :=
  ["D", "X", "Y", "U", "S", "PC", "??", "??", "A", "B", "CC", "DP", "??", "??", "??", "??"]

def bitR : List String := ["CC", "A", "B", "??"]

def blockR : List String := ["D", "X", "Y", "U", "S", "?", "?", "?", "?", "?", "?", "?", "?", "?", "?", "?"]

def off4 : List String := [
  "0", "1", "2", "3", "4", "5", "6", "7", "8", "9", "10", "11", "12", "13", "14", "15",
  "-16", "-15", "-14", "-13", "-12", "-11", "-10", "-9", "-8", "-7", "-6", "-5", "-4", "-3", "-2", "-1"]

def reg : List String := ["X", "Y", "U", "S"]

/-- The text of an index, and the address after the post-byte and its offset. -/
def indexString (d : Dialect) (m : Mem) (pc : BitVec 32) : String × BitVec 32 :=
  let T := e6809Read8Debug m pc
  let R := reg.getD ((T >>> 5) &&& 3).toNat ""
  let PC := pc + 1
  let only6309 (text : String) := (if d.allow6309Codes then text else "???", PC)
  if T &&& 0x80 ≠ 0 then
    match (T &&& 0x1F).toNat with
    | 0x00 => ("," ++ R ++ "+", PC)
    | 0x01 => ("," ++ R ++ "++", PC)
    | 0x02 => (",-" ++ R, PC)
    | 0x03 => (",--" ++ R, PC)
    | 0x04 => ("," ++ R, PC)
    | 0x05 => ("B," ++ R, PC)
    | 0x06 => ("A," ++ R, PC)
    | 0x08 => (byteText m PC ++ "," ++ R, PC + 1)
    | 0x09 => (wordText m PC ++ "," ++ R, PC + 2)
    | 0x0B => ("D," ++ R, PC)
    | 0x0C => (byteText m PC ++ ",PC", PC + 1)
    | 0x0D => (wordText m PC ++ ",PC", PC + 2)
    | 0x11 => ("[," ++ R ++ "++]", PC)
    | 0x13 => ("[,--" ++ R ++ "]", PC)
    | 0x14 => ("[," ++ R ++ "]", PC)
    | 0x15 => ("[B," ++ R ++ "]", PC)
    | 0x16 => ("[A," ++ R ++ "]", PC)
    | 0x18 => ("[" ++ byteText m PC ++ "," ++ R ++ "]", PC + 1)
    | 0x19 => ("[" ++ wordText m PC ++ "," ++ R ++ "]", PC + 2)
    | 0x1B => ("[D," ++ R ++ "]", PC)
    | 0x1C => ("[" ++ byteText m PC ++ ",PC]", PC + 1)
    | 0x1D => ("[" ++ wordText m PC ++ ",PC]", PC + 2)
    | 0x07 => only6309 ("E," ++ R)
    | 0x17 => only6309 ("[E," ++ R ++ "]")
    | 0x0A => only6309 ("F," ++ R)
    | 0x1A => only6309 ("[F," ++ R ++ "]")
    | 0x0E => only6309 ("W," ++ R)
    | 0x1E => only6309 ("[W," ++ R ++ "]")
    | _ =>
      if T = 0x9F then ("[" ++ wordText m PC ++ "]", PC + 2)
      else if d.allow6309Codes then
        match T.toNat with
        | 0x8F => (",W", PC)
        | 0x90 => ("[,W]", PC)
        | 0xAF => (wordText m PC ++ ",W", PC + 2)
        | 0xB0 => ("[" ++ wordText m PC ++ ",W]", PC + 2)
        | 0xCF => (",W++", PC)
        | 0xD0 => ("[,W++]", PC)
        | 0xEF => (",--W", PC)
        | 0xF0 => ("[,--W]", PC)
        | _ => ("???", PC)
      else ("???", PC)
  else (off4.getD (T &&& 0x1F).toNat "" ++ "," ++ R, PC)

/-- The registers of a push or a pull. `other` is the other stack pointer. -/
def stackRegs (T : BitVec 8) (other : String) : String :=
  let name (bit : BitVec 8) (text : String) := if T &&& bit ≠ 0 then [text] else []
  ",".intercalate (name 0x80 "PC" ++ name 0x40 other ++ name 0x20 "Y" ++ name 0x10 "X" ++
    name 0x08 "DP" ++ name 0x04 "B" ++ name 0x02 "A" ++ name 0x01 "CC")

/-- The line of an instruction with its operands at `PC`, and the address after them. -/
def operands (d : Dialect) (m : Mem) (PC : BitVec 32) (I : String) (M : AddrMode) : String × BitVec 32 :=
  let T := e6809Read8Debug m PC
  let hi := (T >>> 4).toNat
  let lo := (T &&& 0xF).toNat
  match M with
  | .nom => ("Invalid", PC)
  | .imp => (I, PC)
  | .imb => (I ++ " #" ++ byteText m PC, PC + 1)
  | .imw => (I ++ " #" ++ wordText m PC, PC + 2)
  | .dir => (I ++ " <" ++ byteText m PC, PC + 1)
  | .ext => (I ++ " " ++ wordText m PC, PC + 2)
  | .ind =>
    let index := indexString d m PC
    (I ++ " " ++ index.1, index.2)
  | .reb =>
    let W : BitVec 16 := (PC + 1 + T.signExtend 32).setWidth 16
    (I ++ " $" ++ hexUpper 4 W.toNat, PC + 1)
  | .rew =>
    let W := argWord m (PC.setWidth 16) + (PC + 2).setWidth 16
    (I ++ " $" ++ hexUpper 4 W.toNat, PC + 2)
  | .r1 => (I ++ " " ++ d.exgTfr.getD hi "" ++ "," ++ d.exgTfr.getD lo "", PC + 1)
  | .r2 => (I ++ " " ++ stackRegs T "U", PC + 1)
  | .r3 => (I ++ " " ++ stackRegs T "S", PC + 1)
  | .bd => (I ++ " #" ++ byteText m PC ++ ",<" ++ byteText m (PC + 1), PC + 2)
  | .be => (I ++ " #" ++ byteText m PC ++ "," ++ wordText m (PC + 1), PC + 3)
  | .bt =>
    (I ++ " " ++ bitR.getD (T >>> 6).toNat "" ++ "." ++ toString (T &&& 7).toNat ++ ",<" ++
      byteText m (PC + 1) ++ "." ++ toString ((T >>> 3) &&& 7).toNat, PC + 2)
  | .t1 => (I ++ " " ++ blockR.getD hi "" ++ "+," ++ blockR.getD lo "" ++ "+", PC + 1)
  | .t2 => (I ++ " " ++ blockR.getD hi "" ++ "-," ++ blockR.getD lo "" ++ "-", PC + 1)
  | .t3 => (I ++ " " ++ blockR.getD hi "" ++ "+," ++ blockR.getD lo "", PC + 1)
  | .t4 => (I ++ " " ++ blockR.getD hi "" ++ "," ++ blockR.getD lo "" ++ "+", PC + 1)
  | .iml =>
    (I ++ " #" ++ wordText m PC ++ hexUpper 2 (e6809Read8Debug m (PC + 2)).toNat ++
      hexUpper 2 (e6809Read8Debug m (PC + 3)).toNat, PC + 4)
  | .bi =>
    let index := indexString d m (PC + 1)
    (I ++ " #" ++ byteText m PC ++ "," ++ index.1, index.2)

/-- One entry of an opcode table. All of them have 256. -/
def entry (codes : List (Opcode × AddrMode)) (T : BitVec 8) : Opcode × AddrMode :=
  codes.getD T.toNat (.ill, .nom)

/-- The line of text and the length. -/
def dasm (d : Dialect) (m : Mem) (pc : BitVec 32) : String × BitVec 32 :=
  let T := e6809Read8Debug m pc
  let line (PC : BitVec 32) (code : Opcode × AddrMode) :=
    let res := operands d m PC (mne code.1) code.2
    (res.1, res.2 - pc)
  if T = 0x10 then line (pc + 2) (entry d.codes10 (e6809Read8Debug m (pc + 1)))
  else if T = 0x11 then line (pc + 2) (entry d.codes11 (e6809Read8Debug m (pc + 1)))
  else line (pc + 1) (entry d.codes T)

def m6809 : Dialect where
  codes := m6809Codes
  codes10 := m6809Codes10
  codes11 := m6809Codes11
  exgTfr := m6809ExgTfr
  allow6309Codes := false

def d6809Disassemble (m : Mem) (pc : BitVec 32) : String × BitVec 32 := dasm m6809 m pc

end Fuzemsys.Emulators.D6809
