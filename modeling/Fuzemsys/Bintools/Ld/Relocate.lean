import Fuzemsys.Bintools.Reloc
import Fuzemsys.Bintools.Ld.Symbols

/-!
# Relocating a stream

`relocate_stream` reads the stream of one segment of one object, resolves its records and
writes what is left. In a raw output no records are left.
-/

namespace Fuzemsys.Bintools.Ld

/-! ## What it reads and writes -/

/-- A symbol as the records of one object refer to it, with its number in the output. -/
structure SymRef where
  value : Word
  type : Byte
  number : Word

/-- What stays the same during a call. -/
structure Linking where
  rawstream : Bool
  ldmode : Mode
  split_id : Bool
  bigendian : Bool
  wordmachine : Bool
  relocf : Bool
  segment : Seg
  base : Seg → Word
  syment : List SymRef

/-- What ends the link. -/
inductive LinkError where
  | unexpectedEof
  | needsAbsolute
  | orgOutsideAbsolute
  | invalidReloc
  | invalidRelocType
  | invalidRelocSym
  | byteRelocationExceeded
  | relocationExceeded
  | corruptRelocStream
  deriving DecidableEq

/-- The address, the output file and its position, the table of relocations, and the errors so far. -/
structure Output where
  dot : Word
  pos : Nat
  out : List (Nat × Byte)
  relocs : List Byte
  err : Nat

def Output.fputc (o : Output) (b : Byte) : Output := { o with pos := o.pos + 1, out := o.out ++ [(o.pos, b)] }

/-- The bytes one after the other. -/
def Output.fputcs (o : Output) : List Byte → Output
  | [] => o
  | b :: bs => (o.fputc b).fputcs bs

def Output.advance (o : Output) (n : Nat) : Output := { o with dot := o.dot + BitVec.ofNat 16 n }

/-- A read whose result nobody looks at: at the end of the file the variable stays. -/
def readb (old : Byte) : List Byte → Byte × List Byte
  | [] => (old, [])
  | b :: s => (b, s)

/-- `io_read16`. Past the end there is no telling what is read, and the stream is corrupt. -/
def read16 (s : List Byte) : Word × List Byte :=
  let (lo, s) := readb 0 s
  let (hi, s) := readb 0 s
  (hi ++ lo, s)

/-! ## Words of the target -/

/-- `target_pquoteb`: quoted unless the output is raw. -/
def targetPquoteb (lk : Linking) (v : Byte) (o : Output) : Output :=
  if v = REL_ESC ∧ ¬ lk.rawstream then o.fputcs [v, REL_REL] else o.fputc v

def targetPut (lk : Linking) (value : Word) (size : Nat) (o : Output) : Output :=
  if size = 1 then targetPquoteb lk (lowByte value) o
  else if lk.bigendian then targetPquoteb lk (lowByte value) (targetPquoteb lk (highByte value) o)
  else targetPquoteb lk (highByte value) (targetPquoteb lk (lowByte value) o)

def targetPgetb : List Byte → Except LinkError (Byte × List Byte)
  | [] => .error .unexpectedEof
  | b :: s => .ok (b, s)

/-- `target_get`, the two calls from left to right. -/
def targetGet (lk : Linking) (size : Nat) (s : List Byte) : Except LinkError (Word × List Byte) :=
  match targetPgetb s with
  | .error e => .error e
  | .ok (b, s) =>
    if size = 1 then .ok (b.setWidth 16, s)
    else
      match targetPgetb s with
      | .error e => .error e
      | .ok (b', s) => .ok (if lk.bigendian then b ++ b' else b' ++ b, s)

/-- `record_reloc`: a loader moves the program by the high bytes of its addresses. -/
def recordReloc (lk : Linking) (high : Bool) (size : Nat) (seg : Byte) (addr : Word) (o : Output) : Output :=
  let addr := if size = 2 ∧ ¬ lk.bigendian then addr + 1 else addr
  if ¬ lk.relocf then o
  else if seg = segByte ZP then { o with relocs := o.relocs ++ [0, 0, lowByte addr] }
  else if size = 1 ∧ ¬ high then o
  else { o with relocs := o.relocs ++ [1, highByte addr, lowByte addr] }

def isCode (seg : Seg) : Bool := seg = CODE || seg = DISCARD || seg = COMMON

/-! ## Records -/

/-- The prefixes of a record, and its code byte. -/
structure Record where
  pcrel : Bool
  overflow : Bool
  high : Bool
  code : Byte

def readHigh (pcrel overflow : Bool) (code : Byte) (s : List Byte) : Record × List Byte :=
  if code = REL_HIGH then
    let (code, s) := readb code s
    ({ pcrel := pcrel, overflow := false, high := true, code := code }, s)
  else ({ pcrel := pcrel, overflow := overflow, high := false, code := code }, s)

def readOverflow (pcrel : Bool) (code : Byte) (s : List Byte) : Record × List Byte :=
  if code = REL_OVERFLOW then
    let (code, s) := readb code s
    readHigh pcrel false code s
  else readHigh pcrel true code s

def readRecord (code : Byte) (s : List Byte) : Record × List Byte :=
  if code = REL_PCR then
    let (code, s) := readb code s
    readOverflow true code s
  else readOverflow false code s

def Record.size (r : Record) : Nat := ((r.code &&& S_SIZE) >>> 4).toNat + 1

/-- The prefixes that a record keeps when the output is not raw. -/
def Record.prefixes (r : Record) : List Byte :=
  (if r.overflow then [] else [REL_OVERFLOW]) ++ (if r.high then [REL_HIGH] else [])

/-- A high relocation in a raw output is the high byte of its sum. -/
def highValue (lk : Linking) (high : Bool) (r : Word) : Word := if high ∧ lk.rawstream then r >>> 8 else r

def highSize (lk : Linking) (high : Bool) (size : Nat) : Nat := if high ∧ lk.rawstream then 1 else size

/-- A record relative to a segment of the object. -/
def simpleReloc (lk : Linking) (rec : Record) (s : List Byte) (o : Output) :
    Except LinkError (List Byte × Output) :=
  let size := rec.size
  let seg := rec.code &&& S_SEGMENT
  if seg = segByte ABSOLUTE ∨ size > 2 then .error .invalidReloc
  else if h : seg.toNat < OSEG then
    let base := lk.base ⟨seg.toNat, h⟩
    let o :=
      if lk.rawstream then o
      else o.fputcs ([REL_ESC] ++ (if rec.pcrel then [REL_PCREL] else []) ++ rec.prefixes ++ [rec.code])
    match targetGet lk size s with
    | .error e => .error e
    | .ok (r, s) =>
      let r := r + base
      if rec.pcrel then
        let size := highSize lk rec.high size
        .ok (s, (targetPut lk (highValue lk rec.high (r - o.dot)) size o).advance size)
      else
        let o := if rec.overflow ∧ (r < base ∨ size = 1 ∧ 255 < r.toNat) then { o with err := o.err ||| 2 } else o
        let size := highSize lk rec.high size
        let o := targetPut lk (highValue lk rec.high r) size o
        let o := if lk.ldmode = .fuzix then recordReloc lk rec.high size seg o.dot o else o
        .ok (s, o.advance size)
  else .error .invalidReloc

/-- The bytes of a record whose symbol is not known are copied. -/
def copyUnknown (lk : Linking) (rec : Record) (sym : SymRef) (s : List Byte) (o : Output) : List Byte × Output :=
  let o := if lk.ldmode ≠ .rflag then { o with err := o.err ||| 1 } else o
  let o :=
    if lk.rawstream then o
    else o.fputcs ([REL_ESC] ++ rec.prefixes ++ [rec.code, lowByte sym.number, highByte sym.number])
  let (tmp, s) := readb 0 s
  let o := o.fputc tmp
  if rec.size = 2 ∨ rec.code &&& REL_TYPE = REL_PCREL then
    let (tmp, s) := readb tmp s
    (s, o.fputc tmp)
  else (s, o)

/-- The address that a PC relative field counts from. -/
def pcOf (wordmachine : Bool) (dot : Word) : Word := if wordmachine then dot / 2 else dot

/-- The value of a record with a known symbol. -/
def resolve (lk : Linking) (rec : Record) (sym : SymRef) (dot : Word) (r : Word) : Except LinkError Word :=
  let r := r + sym.value
  if rec.code &&& REL_TYPE = REL_PCREL then
    let off := r - pcOf lk.wordmachine dot
    if rec.overflow ∧ rec.size = 1 ∧ (off.toInt < -128 ∨ 127 < off.toInt) then .error .byteRelocationExceeded
    else .ok off
  else if rec.overflow ∧ (r < sym.value ∨ rec.size = 1 ∧ 255 < r.toNat) then .error .relocationExceeded
  else .ok r

/-- What both kinds of symbol records end with. -/
def putSymbol (lk : Linking) (rec : Record) (sym : SymRef) (r : Word) (size : Nat) (s : List Byte) (o : Output) :
    List Byte × Output :=
  let o :=
    if rec.code &&& REL_TYPE = REL_SYMBOL ∧ lk.ldmode = .fuzix then
      recordReloc lk rec.high size (sym.type &&& S_SEGMENT) o.dot o
    else o
  (s, (targetPut lk r size o).advance size)

/-- A record with a symbol. -/
def symbolReloc (lk : Linking) (rec : Record) (s : List Byte) (o : Output) :
    Except LinkError (List Byte × Output) :=
  let optype := rec.code &&& REL_TYPE
  if optype ≠ REL_SYMBOL ∧ optype ≠ REL_PCREL then .error .invalidRelocType
  else
    let (number, s) := read16 s
    match lk.syment[number.toNat]? with
    | none => .error .invalidRelocSym
    | some sym =>
      if unknown sym.type then
        let (s, o) := copyUnknown lk rec sym s o
        -- The number of the symbol is still there, and is written after the copied bytes.
        .ok (putSymbol lk rec sym number rec.size s o)
      else
        match targetGet lk (if optype = REL_PCREL then 2 else rec.size) s with
        | .error e => .error e
        | .ok (r, s) =>
          match resolve lk rec sym o.dot r with
          | .error e => .error e
          | .ok r =>
            let o :=
              if ¬ lk.rawstream ∧ optype ≠ REL_PCREL then
                o.fputcs ([REL_ESC] ++ rec.prefixes ++
                  [REL_SIMPLE ||| (sym.type &&& S_SEGMENT) ||| BitVec.ofNat 8 ((rec.size - 1) * 16)])
              else o
            .ok (putSymbol lk rec sym (highValue lk rec.high r) (highSize lk rec.high rec.size) s o)

/-! ## The loop -/

/-- `REL_ORG`. -/
def setOrg (lk : Linking) (s : List Byte) (o : Output) : Except LinkError (List Byte × Output) :=
  if lk.ldmode ≠ .absolute then .error .needsAbsolute
  else if lk.segment ≠ ABSOLUTE then .error .orgOutsideAbsolute
  else
    let (dot, s) := read16 s
    let pos := if ¬ isCode lk.segment ∧ lk.split_id then dot.toNat + 0x10000 else dot.toNat
    .ok (s, { o with dot := dot, pos := pos })

inductive Turn where
  | finished (s : List Byte) (o : Output)
  | more (s : List Byte) (o : Output)

def Turn.ofExcept : Except LinkError (List Byte × Output) → Except LinkError Turn
  | .error e => .error e
  | .ok (s, o) => .ok (.more s o)

/-- One turn of the loop, with the byte that it starts with. -/
def relocateTurn (lk : Linking) (code : Byte) (s : List Byte) (o : Output) : Except LinkError Turn :=
  if code ≠ REL_ESC then .ok (.more s ((o.fputc code).advance 1))
  else
    let (code, s) := readb code s
    if code = REL_EOF then .ok (.finished s o)
    else if code = REL_REL then
      let o := if lk.rawstream then o.fputc REL_ESC else o.fputcs [REL_ESC, REL_REL]
      .ok (.more s (o.advance 1))
    else if code = REL_ORG then Turn.ofExcept (setOrg lk s o)
    else
      let (rec, s) := readRecord code s
      if rec.code &&& REL_SIMPLE ≠ 0 then Turn.ofExcept (simpleReloc lk rec s o)
      else Turn.ofExcept (symbolReloc lk rec s o)

/-- The loop, for at most that many turns. -/
def relocateLoop (lk : Linking) : Nat → List Byte → Output → Except LinkError (List Byte × Output)
  | 0, _, _ => .error .corruptRelocStream
  | _ + 1, [], _ => .error .corruptRelocStream
  | n + 1, code :: s, o =>
    match relocateTurn lk code s o with
    | .error e => .error e
    | .ok (.finished s o) => .ok (s, o)
    | .ok (.more s o) => relocateLoop lk n s o

/-- `relocate_stream`: each turn reads a byte, so there are no more turns than bytes. -/
def relocateStream (lk : Linking) (s : List Byte) (o : Output) : Except LinkError (List Byte × Output) :=
  relocateLoop lk s.length s o

end Fuzemsys.Bintools.Ld
