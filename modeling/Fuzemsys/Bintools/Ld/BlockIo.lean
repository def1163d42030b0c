import Fuzemsys.Bintools.Obj

/-!
# Optimized disk I/O for library scanning

The linker reads objects and libraries in blocks of 512 bytes. `read` returns full blocks but at the end
of the file.
-/

namespace Fuzemsys.Bintools.Ld

structure Io where
  /-- The open file, and where the kernel reads next. -/
  file : List Byte
  offset : Nat
  /-- The first `iolen` bytes of the buffer. -/
  iobuf : List Byte
  /-- From the start of `iobuf`. -/
  ioptr : Nat
  ioblock : Nat
  iopos : Nat

namespace Io

def start : Io := ⟨[], 0, [], 0, 0, 0⟩

def iolen (s : Io) : Nat := s.iobuf.length

def io_get (block : Nat) (s : Io) : Nat × Io :=
  let offset := if block ≠ s.ioblock + 1 then block * 512 else s.offset
  let iobuf := (s.file.drop offset).take 512
  (iobuf.length,
    { s with offset := offset + iobuf.length, iobuf := iobuf, ioblock := block, iopos := 0, ioptr := 0 })

/-- Whether it succeeds comes first. -/
def io_lseek (pos : Nat) (s : Io) : Bool × Io :=
  let block := pos / 512
  let s := if block ≠ s.ioblock then (io_get block s).2 else s
  let s := { s with iopos := pos % 512, ioptr := pos % 512 }
  (!decide (s.iopos > s.iolen), s)

def io_getpos (s : Io) : Nat := (s.ioblock * 512) ||| s.iopos

def readLoop : Nat → Nat → Nat → Io → List Byte × Io
  | 0, _, _, s => ([], s)
  | fuel + 1, len, left, s =>
    if len = 0 then ([], s)
    else
      let n := min len left
      let got := (s.iobuf.drop s.ioptr).take n
      let s := if n ≠ 0 then { s with ioptr := s.ioptr + n, iopos := s.iopos + len } else s
      if len - n = 0 then (got, s)
      else
        let (count, s) := io_get (s.ioblock + 1) s
        if count = 0 then (got, s)
        else
          let (more, s) := readLoop fuel (len - n) count s
          (got ++ more, s)

/-- The bytes that are read, and their number. -/
def io_read (len : Nat) (s : Io) : List Byte × Io := readLoop (len + 1) len (s.iolen - s.iopos) s

def io_readb (s : Io) : List Byte × Io :=
  if s.iopos < s.iolen then ((s.iobuf.drop s.ioptr).take 1, { s with iopos := s.iopos + 1, ioptr := s.ioptr + 1 })
  else io_read 1 s

/-- The two bytes as they are after the read, which may leave some of `p` alone. -/
def word (p got : List Byte) : Word :=
  let p := got ++ p.drop got.length
  ((p.getD 1 0).setWidth 16 <<< 8) ||| (p.getD 0 0).setWidth 16

def io_read16 (p : List Byte) (s : Io) : Word × Io := (word p (io_read 2 s).1, (io_read 2 s).2)

def io_open (file : List Byte) (s : Io) : Bool × Io := io_lseek 0 { s with file := file, offset := 0, ioblock := 0xFFFF }

end Io

/-! ## The file itself -/

/-- A file with one position. -/
structure Direct where
  file : List Byte
  pos : Nat

namespace Direct

def read (len : Nat) (a : Direct) : List Byte × Direct :=
  ((a.file.drop a.pos).take len, { a with pos := a.pos + ((a.file.drop a.pos).take len).length })

end Direct

/-! ## Calls -/

inductive IoCall where
  | io_open (file : List Byte)
  | io_lseek (pos : Nat)
  | io_read (len : Nat)
  | io_readb
  /-- With what is in `p` before it. -/
  | io_read16 (p : List Byte)
  | io_getpos

inductive Reply where
  | done (success : Bool)
  | bytes (got : List Byte)
  | word (w : Word)
  | pos (p : Nat)
  deriving DecidableEq

def Io.call (s : Io) : IoCall → Reply × Io
  | .io_open file => (.done (io_open file s).1, (io_open file s).2)
  | .io_lseek pos => (.done (io_lseek pos s).1, (io_lseek pos s).2)
  | .io_read len => (.bytes (io_read len s).1, (io_read len s).2)
  | .io_readb => (.bytes (io_readb s).1, (io_readb s).2)
  | .io_read16 p => (.word (io_read16 p s).1, (io_read16 p s).2)
  | .io_getpos => (.pos s.io_getpos, s)

def Direct.call (a : Direct) : IoCall → Reply × Direct
  | .io_open file => (.done true, ⟨file, 0⟩)
  | .io_lseek pos => (.done true, { a with pos := pos })
  | .io_read len => (.bytes (a.read len).1, (a.read len).2)
  | .io_readb => (.bytes (a.read 1).1, (a.read 1).2)
  | .io_read16 p => (.word (Io.word p (a.read 2).1), (a.read 2).2)
  | .io_getpos => (.pos a.pos, a)

def Io.replies : List IoCall → Io → List Reply
  | [], _ => []
  | c :: cs, s => (s.call c).1 :: replies cs (s.call c).2

def Direct.replies : List IoCall → Direct → List Reply
  | [], _ => []
  | c :: cs, a => (a.call c).1 :: replies cs (a.call c).2

/-- Every position sought is inside the file that is open then. -/
def Inside : List IoCall → List Byte → Prop
  | [], _ => True
  | .io_open file :: cs, _ => Inside cs file
  | .io_lseek pos :: cs, file => pos ≤ file.length ∧ Inside cs file
  | _ :: cs, file => Inside cs file

/-- The position is asked for neither at the end of a full block with an odd number nor behind the file. -/
def PositionsRight : List IoCall → Io → Prop
  | [], _ => True
  | c :: cs, s =>
    (c = .io_getpos → (s.iopos < 512 ∨ s.ioblock % 2 = 0) ∧ s.ioblock * 512 + s.iopos ≤ s.file.length) ∧
      PositionsRight cs (s.call c).2

end Fuzemsys.Bintools.Ld
