import Mathlib.Data.List.Basic
import Fuzemsys.Lib.Run

/-!
# fgets

A stream hands out bytes one at a time, from its buffer or from the next `read`.
`fgets` stores them up to a newline, and the assembler reads its source with it.
-/

open Fuzemsys.Lib

namespace Fuzemsys.Libs.Stdio

abbrev Byte := BitVec 8

def newline : Byte := 10

/-! ## Streams -/

def modeRead : BitVec 16 := 0x10
def modeReading : BitVec 16 := 0x40
def modeEof : BitVec 16 := 0x100
def modeErr : BitVec 16 := 0x200
def modeUngot : BitVec 16 := 0x400

/-- An input stream: its unread buffer, and what the next calls of `read` return (`none` is -1). -/
structure FILE where
  mode : BitVec 16
  buffered : List Byte
  reads : List (Option (List Byte))
  deriving DecidableEq, Repr

def FILE.ferror (f : FILE) : Bool := f.mode &&& modeErr ≠ 0

/-- Neither an end of file nor an error stands in the way. -/
def FILE.readable (f : FILE) : Bool := f.mode &&& (modeRead ||| modeEof ||| modeErr) = modeRead

/-- The next character, where `none` is `EOF`. -/
def fgetc (f : FILE) : Option Byte × FILE :=
  if !f.readable then (none, f)
  else match f.buffered with
    | ch :: rest => (some ch, { f with buffered := rest })
    | [] => match f.reads with
      | some (ch :: rest) :: later =>
        (some ch, { mode := (f.mode ||| modeReading) &&& ~~~modeUngot, buffered := rest, reads := later })
      | some [] :: later => (none, { f with mode := f.mode ||| modeEof, reads := later })
      | none :: later => (none, { f with mode := f.mode ||| modeErr, reads := later })
      | [] => (none, { f with mode := f.mode ||| modeEof })

/-! ## Memory -/

/-- The bytes of memory, and the addresses of all stores in their order. -/
structure Memory where
  cells : Nat → Byte
  stores : List Nat

def Memory.put (m : Memory) (a : Nat) (b : Byte) : Memory :=
  { cells := fun k => if k = a then b else m.cells k, stores := m.stores ++ [a] }

/-! ## The function -/

/-- `while (i-- != 0)`: the end of the bytes stored, or `none` where the loop returns NULL. -/
def fgetsLoop (ret : Nat) : Nat → Nat → Memory → FILE → Option Nat × Memory × FILE
  | 0, s, m, f => (some s, m, f)
  | i + 1, s, m, f =>
    match fgetc f with
    | (none, f) => (if s = ret then none else some s, m, f)
    | (some ch, f) =>
      if ch = newline then (some (s + 1), m.put s ch, f)
      else fgetsLoop ret i (s + 1) (m.put s ch) f

/-- What a call leaves: its result (`none` is NULL), memory and the stream. -/
structure Fgets where
  ret : Option Nat
  mem : Memory
  file : FILE

def fgets (s count : Nat) (m : Memory) (f : FILE) : Fgets :=
  match fgetsLoop s count s m f with
  | (none, m, f) => ⟨none, m, f⟩
  | (some e, m, f) => ⟨if f.ferror then none else some s, m.put e 0, f⟩

/-! ## What a call should do -/

/-- The bytes that calls of `read` deliver up to an end of file or an error. -/
def delivered : List (Option (List Byte)) → List Byte
  | some (ch :: rest) :: later => ch :: rest ++ delivered later
  | _ => []

/-- What is left of the stream. -/
def FILE.contents (f : FILE) : List Byte :=
  if f.readable then f.buffered ++ delivered f.reads else []

/-- A call with a buffer of at least one byte, and what the program did to memory before it. -/
structure Call where
  s : Nat
  count : Nat
  count_pos : 1 ≤ count
  before : Memory → Memory

structure Reader where
  mem : Memory
  file : FILE

def Reader.call (st : Reader) (c : Call) : Fgets := fgets c.s c.count (c.before st.mem) st.file

def Reader.next (st : Reader) (c : Call) : Reader := ⟨(st.call c).mem, (st.call c).file⟩

/-- The addresses that a call stores to. -/
def Reader.stored (st : Reader) (c : Call) : List Nat :=
  (st.call c).mem.stores.drop (c.before st.mem).stores.length

/-- The bytes that a call stores before its NUL. -/
def Reader.line (st : Reader) (c : Call) : List Byte :=
  (st.stored c).dropLast.map (st.call c).mem.cells

/-- All stores of a call lie in its buffer. -/
def Inside (st : Reader) (c : Call) : Prop :=
  (st.stored c).length ≤ c.count ∧ ∀ a ∈ st.stored c, c.s ≤ a ∧ a < c.s + c.count

/-- One call stores a line: what it consumed, ended by a NUL, and no more than the buffer holds. -/
structure ReadsLine (st : Reader) (c : Call) : Prop where
  inside : Inside st c
  placed : (st.stored c).dropLast = List.range' c.s (st.line c).length
  ended : st.stored c = [] ∨ (st.call c).mem.cells (c.s + (st.line c).length) = 0
  consumed : st.file.contents = st.line c ++ (st.next c).file.contents
  one_line : newline ∉ (st.line c).dropLast
  stops : (st.line c).getLast? = some newline ∨ (st.line c).length = c.count - 1 ∨
    (st.next c).file.contents = []

/-- The lines of successive calls. -/
def linesRead : Reader → List Call → List (List Byte)
  | _, [] => []
  | st, c :: calls => st.line c :: linesRead (st.next c) calls

/-- The next line ends before its buffer is full. -/
def LineFits (st : Reader) (c : Call) : Prop :=
  newline ∈ st.file.contents.take (c.count - 1) ∨ st.file.contents.length < c.count

instance (st : Reader) (c : Call) : Decidable (LineFits st c) :=
  inferInstanceAs (Decidable (_ ∨ _))

/-! ## The assembler's main loop -/

def NINPUT : Nat := 128

/-- `fgets(ib, NINPUT, ifp)`. -/
def asCall (ib : Nat) : Call := { s := ib, count := NINPUT, count_pos := by decide, before := id }

/-- A pass over the source: the states at its first `n` calls of `fgets`, which ends it with NULL.
What is done with a line is a parameter. -/
def asPass (asmline : Memory → Memory) (ib : Nat) : Nat → Reader → List Reader
  | 0, _ => []
  | n + 1, st =>
    let r := st.call (asCall ib)
    st :: if r.ret = none then [] else asPass asmline ib n ⟨asmline r.mem, r.file⟩

/-- A text cut after its newlines. -/
def textLines : List Byte → List (List Byte)
  | [] => []
  | c :: cs =>
    if c = newline then [c] :: textLines cs
    else match textLines cs with
      | [] => [[c]]
      | l :: ls => (c :: l) :: ls

end Fuzemsys.Libs.Stdio
