import Mathlib.Logic.Function.Basic
import Fuzemsys.Bintools.Reloc

/-!
# What the assembler emits

The emitters of `as4.c`. They count what each segment gets in every pass, and write it
in the last one. An error ends the assembly: no object file is made from such a source.
-/

namespace Fuzemsys.Bintools.As

/-! ## State -/

/-- What the compile-time options of the assembler choose. -/
structure Target where
  bigendian : Bool
  overflowOk : Bool
  limit : Nat

inductive AsError where
  | dataInBss
  | segmentOverflow
  | constantRange
  | phaseError
  | mustBeAbsolute
  deriving DecidableEq

/-- A byte in the object file. -/
structure Written where
  pos : Nat
  seg : Seg
  byte : Byte
  deriving DecidableEq

/-- The static variables, the position in the object file and what was written there. -/
structure Asm where
  pass : Nat
  segment : Seg
  dot : Seg → Word
  segsize : Seg → Word
  truesize : Seg → BitVec 32
  segbase : Seg → Nat
  segpad : Seg → Word
  full : Seg → Bool
  pos : Nat
  out : List Written

/-- The fields of an address that the emitters use. A symbol is its number. -/
structure Addr where
  a_value : Word
  a_segment : Byte
  a_low : Bool
  a_high : Bool
  a_sym : Option Word

/-! ## Bytes -/

/-- `outbyte`: the stream of the BSS is only counted. -/
def outbyte (st : Asm) (b : Byte) : Asm :=
  let st :=
    if st.pass = 3 ∧ st.segment ≠ BSS then
      { st with pos := st.pos + 1, out := st.out ++ [{ pos := st.pos, seg := st.segment, byte := b }] }
    else st
  { st with
    segbase := Function.update st.segbase st.segment (st.segbase st.segment + 1)
    segsize := Function.update st.segsize st.segment (st.segsize st.segment + 1) }

def reservebyte (st : Asm) : Asm :=
  { st with segpad := Function.update st.segpad st.segment (st.segpad st.segment + 1) }

/-- The two counters of a program byte. -/
def countByte (st : Asm) : Asm :=
  { st with
    dot := Function.update st.dot st.segment (st.dot st.segment + 1)
    truesize := Function.update st.truesize st.segment (st.truesize st.segment + 1) }

def checkStoreAllowed (st : Asm) (value : Word) : Except AsError Unit :=
  if value ≠ 0 ∧ st.segment = BSS then .error .dataInBss else .ok ()

def sizecheck (tgt : Target) (st : Asm) : Except AsError Asm :=
  if st.full st.segment then .error .segmentOverflow
  else if st.pass = 3 ∧
      ((st.truesize st.segment).toNat = tgt.limit ∨ (st.dot st.segment).toNat = tgt.limit) then
    .ok { st with full := Function.update st.full st.segment true }
  else .ok st

/-- The checks at the start of each emitter of a program byte. -/
def checkByte (tgt : Target) (st : Asm) (b : Byte) : Except AsError Asm :=
  match checkStoreAllowed st (b.setWidth 16) with
  | .error e => .error e
  | .ok () => sizecheck tgt st

/-- An absolute byte, quoted where it looks like a record. -/
def outab (tgt : Target) (st : Asm) (b : Byte) : Except AsError Asm :=
  match checkByte tgt st b with
  | .error e => .error e
  | .ok st =>
    let st := outbyte st b
    let st := if b = REL_ESC then outbyte st REL_REL else st
    .ok (countByte st)

/-- An unquoted program byte, as part of a record. -/
def outabyte (tgt : Target) (st : Asm) (b : Byte) : Except AsError Asm :=
  match checkByte tgt st b with
  | .error e => .error e
  | .ok st => .ok (countByte (outbyte st b))

/-- An absolute byte whose value may still change, with room for a quote. -/
def outab2 (tgt : Target) (st : Asm) (b : Byte) : Except AsError Asm :=
  match checkByte tgt st b with
  | .error e => .error e
  | .ok st =>
    let st := outbyte st b
    let st := if b = REL_ESC then outbyte st REL_REL else reservebyte st
    .ok (countByte st)

/-- The bytes one after the other. -/
def outbytes (st : Asm) : List Byte → Asm
  | [] => st
  | b :: bs => outbytes (outbyte st b) bs

def outabytes (tgt : Target) (st : Asm) : List Byte → Except AsError Asm
  | [] => .ok st
  | b :: bs =>
    match outabyte tgt st b with
    | .error e => .error e
    | .ok st => outabytes tgt st bs

def outab2s (tgt : Target) (st : Asm) : List Byte → Except AsError Asm
  | [] => .ok st
  | b :: bs =>
    match outab2 tgt st b with
    | .error e => .error e
    | .ok st => outab2s tgt st bs

/-- A word in the order of the target. -/
def wordBytes (tgt : Target) (w : Word) : List Byte :=
  if tgt.bigendian then [highByte w, lowByte w] else [lowByte w, highByte w]

/-! ## Relocations -/

/-- The size bits of a record. -/
def sizeBits (bytes : Nat) : Byte := BitVec.ofNat 8 ((bytes - 1) * 16)

/-- The end of a record's head: what it is relative to. -/
def outtarget (st : Asm) (a : Addr) (s : Byte) : Except AsError Asm :=
  match a.a_sym with
  | none =>
    if a.a_segment = UNKNOWN then .error .phaseError
    else .ok (outbyte st (s ||| REL_SIMPLE ||| a.a_segment))
  | some number => .ok (outbytes st [s ||| REL_SYMBOL, lowByte number, highByte number])

/-- The value of a record, unquoted. -/
def outvalue (tgt : Target) (st : Asm) (a : Addr) (bytes : Nat) (value : Word) : Except AsError Asm :=
  if a.a_low then outabyte tgt st (lowByte value)
  else if a.a_high then
    -- The low byte is there for the carry and is not part of the program.
    if tgt.bigendian then
      match outabyte tgt st (highByte value) with
      | .error e => .error e
      | .ok st => .ok (outbyte st (lowByte value))
    else outabyte tgt (outbyte st (lowByte value)) (highByte value)
  else if bytes = 1 then outabyte tgt st (lowByte value)
  else outabytes tgt st (wordBytes tgt value)

/-- The record of a relocatable address or a symbol, and then its value. -/
def outrecord (tgt : Target) (st : Asm) (a : Addr) (bytes : Nat) : Except AsError Asm :=
  let st := outbyte st REL_ESC
  match checkStoreAllowed st 1 with
  | .error e => .error e
  | .ok () =>
    let st := if tgt.overflowOk then outbyte st REL_OVERFLOW else st
    if bytes ≠ 1 ∧ (a.a_low ∨ a.a_high) then .error .constantRange
    else
      let st := if a.a_low ∧ ¬ tgt.overflowOk then outbyte st REL_OVERFLOW else st
      let value := if a.a_low then a.a_value &&& 0xFF else a.a_value
      let st := if a.a_high then outbyte st REL_HIGH else st
      let s := if a.a_high then sizeBits 2 else if a.a_low then sizeBits 1 else sizeBits bytes
      match outtarget st a s with
      | .error e => .error e
      | .ok st => outvalue tgt st a bytes value

/-- A constant. It may still change, so most forms have room for a quote. -/
def outconstant (tgt : Target) (st : Asm) (a : Addr) (bytes : Nat) : Except AsError Asm :=
  if a.a_high then outab2 tgt st (highByte a.a_value)
  else if a.a_low then outab2 tgt st (lowByte a.a_value)
  else if bytes = 1 then outab tgt st (lowByte a.a_value)
  else outab2s tgt st (wordBytes tgt a.a_value)

def outreloc (tgt : Target) (st : Asm) (a : Addr) (bytes : Nat) : Except AsError Asm :=
  if a.a_segment ≠ segByte ABSOLUTE ∨ a.a_sym.isSome then outrecord tgt st a bytes
  else outconstant tgt st a bytes

def outraw (tgt : Target) (st : Asm) (a : Addr) : Except AsError Asm := outreloc tgt st a 2

def outrab (tgt : Target) (st : Asm) (a : Addr) : Except AsError Asm := outreloc tgt st a 1

def outabchk2 (tgt : Target) (st : Asm) (a : Addr) : Except AsError Asm :=
  if a.a_low then outab tgt st (lowByte a.a_value)
  else if a.a_high then outab tgt st (highByte a.a_value)
  else if 255 < a.a_value.toNat then .error .constantRange
  else outab tgt st (lowByte a.a_value)

/-- A byte relative to the program counter. With a symbol, a word goes to the linker. -/
def outrabrel (tgt : Target) (st : Asm) (a : Addr) : Except AsError Asm :=
  match checkStoreAllowed st 1 with
  | .error e => .error e
  | .ok () =>
    match a.a_sym with
    | some number =>
      let st := outbytes st [REL_ESC, sizeBits 1 ||| REL_PCREL, lowByte number, highByte number]
      match outabyte tgt st (lowByte a.a_value) with
      | .error e => .error e
      | .ok st => .ok (outbyte st (highByte a.a_value))
    | none =>
      if a.a_value.toInt < -128 ∨ 127 < a.a_value.toInt then .error .constantRange
      else outab2 tgt st (lowByte a.a_value)

def outrawrel (tgt : Target) (st : Asm) (a : Addr) : Except AsError Asm :=
  match checkStoreAllowed st 1 with
  | .error e => .error e
  | .ok () =>
    match a.a_sym with
    | some number =>
      outabytes tgt (outbytes st [REL_ESC, sizeBits 2 ||| REL_PCREL, lowByte number, highByte number])
        (wordBytes tgt a.a_value)
    | none =>
      outabytes tgt (outbytes st [REL_ESC, REL_PCR, sizeBits 2 ||| REL_SIMPLE ||| a.a_segment])
        (wordBytes tgt a.a_value)

/-! ## Segments -/

/-- `outsegment` seeks to where the segment is written next. -/
def outsegment (st : Asm) (seg : Seg) : Asm := if st.pass = 3 then { st with pos := st.segbase seg } else st

def outabsolute (st : Asm) (addr : Word) : Except AsError Asm :=
  if st.segment ≠ ABSOLUTE then .error .mustBeAbsolute
  else .ok (outbytes st [REL_ESC, REL_ORG, lowByte addr, highByte addr])

/-- The directive that changes the segment. -/
def setSegment (st : Asm) (seg : Seg) : Asm := outsegment { st with segment := seg } seg

/-- The directive that sets the address. -/
def org (st : Asm) (addr : Word) : Except AsError Asm :=
  let st := outsegment st ABSOLUTE
  outabsolute { st with dot := Function.update st.dot st.segment addr } addr

/-- `.ds`: that many zero bytes. -/
def outzeros (tgt : Target) (st : Asm) : Nat → Except AsError Asm
  | 0 => .ok st
  | n + 1 =>
    match outab tgt st 0 with
    | .error e => .error e
    | .ok st => outzeros tgt st n

end Fuzemsys.Bintools.As
