import Mathlib.Data.BitVec
import Mathlib.Data.List.Basic

/-!
# A stream for reading and writing

The buffer of a stream, the flags of its mode, and the offset of the file that it is on. The file takes and
gives all that is asked for.
-/

namespace Fuzemsys.Libs.FileStream

abbrev Byte := BitVec 8

/-! ## The file -/

inductive Whence where
  | SEEK_SET | SEEK_CUR | SEEK_END
  deriving DecidableEq

/-- Bytes that are not there yet are zero. -/
def writeAt (file : List Byte) (offset : Nat) (bytes : List Byte) : List Byte :=
  if bytes = [] then file
  else (file ++ List.replicate (offset - file.length) 0).take offset ++ bytes ++ file.drop (offset + bytes.length)

/-- Where a seek goes. -/
def target (file : List Byte) (pos : Nat) (offset : Int) : Whence → Int
  | .SEEK_SET => offset
  | .SEEK_CUR => pos + offset
  | .SEEK_END => file.length + offset

/-! ## The stream -/

/-- An `int` has sixteen bits. -/
def INT_MAX : Nat := 32767

structure Stream where
  file : List Byte
  /-- The offset of the file descriptor. -/
  fpos : Nat
  /-- From `bufstart` to `bufend`. -/
  buffer : List Byte
  bufpos : Nat
  bufread : Nat
  MODE_READING : Bool
  MODE_WRITING : Bool
  MODE_UNGOT : Bool
  MODE_EOF : Bool
  MODE_ERR : Bool

namespace Stream

variable (s : Stream)

def read (n : Nat) : List Byte × Stream :=
  let bytes := (s.file.drop s.fpos).take n
  (bytes, { s with fpos := s.fpos + bytes.length })

def write (bytes : List Byte) : Stream :=
  { s with file := writeAt s.file s.fpos bytes, fpos := s.fpos + bytes.length }

def lseek (offset : Int) (ref : Whence) : Option Stream :=
  if target s.file s.fpos offset ref < 0 then none
  else some { s with fpos := (target s.file s.fpos offset ref).toNat }

/-- Bytes buffered but unread. -/
def unread : Int := s.bufread - s.bufpos

def cleared : Stream :=
  { s with
    MODE_READING := false, MODE_WRITING := false, MODE_EOF := false, MODE_UNGOT := false
    bufpos := 0, bufread := 0 }

def fflush : Stream :=
  if s.MODE_WRITING then (s.write (s.buffer.take s.bufpos)).cleared
  else if s.MODE_READING ∧ 0 < s.unread then ((s.lseek (-s.unread) .SEEK_CUR).getD s).cleared
  else s.cleared

/-- What a call does first, if the last one was a write. -/
def synced : Stream := if s.MODE_WRITING then s.fflush else s

/-- What a call does first, if the last one was a read. -/
def unread_back : Stream := if s.MODE_READING then s.fflush else s

/-- The rest is read directly. A count above the largest `int` is taken for an error. -/
def freadMore (size : Nat) (got : List Byte) (n : Nat) : (Nat × List Byte) × Stream :=
  let p := s.read n
  if INT_MAX < p.1.length then ((got.length / size, got ++ p.1), { p.2 with MODE_ERR := true })
  else
    (((got ++ p.1).length / size, got ++ p.1), if p.1 = [] then { p.2 with MODE_EOF := true } else p.2)

/-- The number of bytes is an `unsigned`, and what is buffered is compared with it as one. -/
def fread (size nelm : Nat) : (Nat × List Byte) × Stream :=
  if size = 0 ∨ nelm = 0 then ((0, []), s)
  else if s.MODE_EOF ∨ s.MODE_ERR then ((0, []), s.synced)
  else
    let t := s.synced
    let bytes : Nat := size * nelm % 2 ^ 16
    if bytes ≤ (t.unread % 2 ^ 16).toNat then
      ((nelm, (t.buffer.drop t.bufpos).take bytes), { t with bufpos := t.bufpos + bytes })
    else if 0 < t.unread then
      let got := (t.buffer.drop t.bufpos).take t.unread.toNat
      { t with bufpos := t.bufpos + bytes }.freadMore size got (bytes - got.length)
    else t.freadMore size [] bytes

/-- The next character of the buffer. -/
def getChar : Option Byte × Stream := (s.buffer[s.bufpos]?, { s with bufpos := s.bufpos + 1 })

/-- What `fread` put at the start of the buffer is there to be read. -/
def filled (bytes : List Byte) : Stream :=
  { s with
    buffer := bytes ++ s.buffer.drop bytes.length, bufread := s.bufread + bytes.length
    MODE_READING := true, MODE_UNGOT := false }

def fgetc : Option Byte × Stream :=
  let t := s.synced
  if t.MODE_EOF ∨ t.MODE_ERR then (none, t)
  else if t.bufread ≤ t.bufpos then
    let p := { t with bufpos := 0, bufread := 0 }.fread 1 t.buffer.length
    if p.1.1 = 0 then (none, p.2) else (p.2.filled p.1.2).getChar
  else t.getChar

def ungetc (c : Byte) : Option Byte × Stream :=
  if s.synced.MODE_ERR then (none, s.synced)
  else
    let t := { s.synced with MODE_UNGOT := true }
    if 0 < t.bufpos then (some c, { t with buffer := t.buffer.set (t.bufpos - 1) c, bufpos := t.bufpos - 1 })
    else if t.bufread = 0 then (some c, { t with buffer := t.buffer.set 0 c, bufread := 1 })
    else (none, t)

/-- The bytes are put into the buffer. -/
def put (bytes : List Byte) : Stream :=
  { s with
    buffer := s.buffer.take s.bufpos ++ bytes ++ s.buffer.drop (s.bufpos + bytes.length)
    bufpos := s.bufpos + bytes.length, MODE_WRITING := true }

/-- The stream is fully buffered. -/
def fputc (c : Byte) : Option Byte × Stream :=
  let t := s.unread_back
  if s.MODE_EOF ∨ s.MODE_ERR then (none, t)
  else (some c, (if t.buffer.length ≤ t.bufpos then t.fflush else t).put [c])

def fwrite (size nelm : Nat) (buf : List Byte) : Nat × Stream :=
  if size = 0 ∨ nelm = 0 then (0, s)
  else
    let t := s.unread_back
    if s.MODE_EOF ∨ s.MODE_ERR then (0, t)
    else
      let bytes := buf.take (size * nelm % 2 ^ 16)
      let t := if t.buffer.length - t.bufpos < bytes.length then t.fflush else t
      if bytes.length ≤ t.buffer.length - t.bufpos then (nelm, t.put bytes)
      else if INT_MAX < bytes.length then (0, { t.write bytes with MODE_ERR := true })
      else (bytes.length / size, t.write bytes)

/-- The pointer can be moved, if that is all there is to do. -/
def fast (offset : Int) : Prop :=
  offset < s.fpos ∧ (s.fpos : Int) - s.bufread ≤ offset

instance (offset : Int) : Decidable (s.fast offset) := inferInstanceAs (Decidable (_ ∧ _))

/-- The offset from the start of the file, if the first part of `fseek` is for this seek. -/
def seekTarget (offset : Int) (ref : Whence) : Option Int :=
  if s.MODE_READING ∧ ¬s.MODE_UNGOT then
    match ref with
    | .SEEK_SET => some offset
    | .SEEK_CUR => some (offset + s.fpos - s.unread)
    | .SEEK_END => none
  else none

def fseekSlow (offset : Int) (ref : Whence) : Bool × Stream :=
  match s.fflush.lseek offset ref with
  | none => (false, s.fflush)
  | some s => (true, s)

def fseek (offset : Int) (ref : Whence) : Bool × Stream :=
  match s.seekTarget offset ref with
  | none => s.fseekSlow offset ref
  | some offset =>
    if s.fast offset then (true, { s with bufpos := (offset - s.fpos + s.bufread).toNat })
    else s.fseekSlow offset .SEEK_SET

def ftell : Nat × Stream := (s.fflush.fpos, s.fflush)

end Stream

/-- A stream for reading and writing, just opened. -/
def opened (file : List Byte) (size : Nat) : Stream where
  file := file
  fpos := 0
  buffer := List.replicate size 0
  bufpos := 0
  bufread := 0
  MODE_READING := false
  MODE_WRITING := false
  MODE_UNGOT := false
  MODE_EOF := false
  MODE_ERR := false

/-! ## A file with one position -/

structure ByteFile where
  file : List Byte
  pos : Nat

namespace ByteFile

variable (a : ByteFile)

def read (n : Nat) : List Byte × ByteFile :=
  let bytes := (a.file.drop a.pos).take n
  (bytes, { a with pos := a.pos + bytes.length })

def write (bytes : List Byte) : ByteFile := ⟨writeAt a.file a.pos bytes, a.pos + bytes.length⟩

def seek (offset : Int) (ref : Whence) : Bool × ByteFile :=
  if target a.file a.pos offset ref < 0 then (false, a)
  else (true, { a with pos := (target a.file a.pos offset ref).toNat })

end ByteFile

/-! ## Calls -/

inductive Call where
  | fgetc
  | ungetc (c : Byte)
  | fread (size nelm : Nat)
  | fputc (c : Byte)
  | fwrite (size nelm : Nat) (buf : List Byte)
  | fseek (offset : Int) (ref : Whence)
  | ftell
  | fflush

/-- What a call returns. -/
inductive Result where
  | char (c : Option Byte)
  | items (n : Nat) (bytes : List Byte)
  | count (n : Nat)
  | success (ok : Bool)
  | position (n : Nat)
  deriving DecidableEq

def Stream.call (s : Stream) : Call → Result × Stream
  | .fgetc => (.char s.fgetc.1, s.fgetc.2)
  | .ungetc c => (.char (s.ungetc c).1, (s.ungetc c).2)
  | .fread size nelm => (.items (s.fread size nelm).1.1 (s.fread size nelm).1.2, (s.fread size nelm).2)
  | .fputc c => (.char (s.fputc c).1, (s.fputc c).2)
  | .fwrite size nelm buf => (.count (s.fwrite size nelm buf).1, (s.fwrite size nelm buf).2)
  | .fseek offset ref => (.success (s.fseek offset ref).1, (s.fseek offset ref).2)
  | .ftell => (.position s.ftell.1, s.ftell.2)
  | .fflush => (.success true, s.fflush)

def ByteFile.call (a : ByteFile) : Call → Result × ByteFile
  | .fgetc => (.char (a.read 1).1.head?, (a.read 1).2)
  | .ungetc c => (.char (some c), { a with pos := a.pos - 1 })
  | .fread size nelm =>
    (.items ((a.read (size * nelm)).1.length / size) (a.read (size * nelm)).1, (a.read (size * nelm)).2)
  | .fputc c => (.char (some c), a.write [c])
  | .fwrite size nelm buf => (.count (if size = 0 then 0 else nelm), a.write (buf.take (size * nelm)))
  | .fseek offset ref => (.success (a.seek offset ref).1, (a.seek offset ref).2)
  | .ftell => (.position a.pos, a)
  | .fflush => (.success true, a)

/-! ## Runs -/

/-- What was done last. -/
inductive Last where
  /-- The last character that was read, unless it was pushed back. -/
  | reading (c : Option Byte)
  | writing
  | positioned
  deriving DecidableEq

def Last.after (last : Last) : Call → Result → Last
  | .fgetc, .char c => .reading c
  | .fread _ _, .items _ bytes => .reading bytes.getLast?
  | .ungetc _, _ => .reading none
  | .fputc _, _ => .writing
  | .fwrite _ _ _, _ => .writing
  | .fseek _ _, _ => .positioned
  | .fflush, _ => .positioned
  | _, _ => last

/-- A stream, and the file that it stands for. -/
structure Session where
  stream : Stream
  file : ByteFile
  last : Last

namespace Session

def opened (file : List Byte) (size : Nat) : Session := ⟨FileStream.opened file size, ⟨file, 0⟩, .positioned⟩

variable (x : Session)

def next (call : Call) : Session where
  stream := (x.stream.call call).2
  file := (x.file.call call).2
  last := x.last.after call (x.file.call call).1

/-- The character pushed back is the one just read, and a seek or a flush is between reading and writing. -/
def Permits : Call → Prop
  | .fgetc => x.last ≠ .writing
  | .fread _ _ => x.last ≠ .writing
  | .ungetc c => x.last = .reading (some c)
  | .fputc _ => ∀ c, x.last ≠ .reading c
  | .fwrite size nelm buf => (∀ c, x.last ≠ .reading c) ∧ size * nelm ≤ buf.length
  | _ => True

end Session

/-- What the buffer was filled with is what comes before the offset of the descriptor, and the end was not met. -/
def Stream.Fresh (s : Stream) : Prop :=
  s.MODE_EOF = false ∧ s.bufread ≤ s.fpos ∧
    s.buffer.take s.bufread = (s.file.drop (s.fpos - s.bufread)).take s.bufread

/-- The calls that the stream is ready for. -/
def Stream.Ready (s : Stream) : Call → Prop
  | .fread size nelm =>
    size * nelm ≤ INT_MAX ∧ (s.MODE_READING → 0 < s.unread → (size * nelm : Nat) ≤ s.unread)
  | .fwrite size nelm _ => size * nelm ≤ INT_MAX
  | .ungetc _ => s.MODE_READING ∧ 0 < s.bufpos
  | .fseek offset ref => ∀ o, s.seekTarget offset ref = some o → s.fast o → s.Fresh
  | _ => True

/-- A file opened with a buffer of this size, and calls made on it. -/
inductive Run (ready : Stream → Call → Prop) (file : List Byte) (size : Nat) : Session → Prop
  | opened : Run ready file size (.opened file size)
  | step {x : Session} {call : Call} :
      Run ready file size x → x.Permits call → ready x.stream call → Run ready file size (x.next call)

end Fuzemsys.Libs.FileStream
