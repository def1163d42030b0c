import Fuzemsys.Fcc.Token

/-!
# The tokenizer

The part of the first pass that reads the source and writes the token stream: line
numbers and file names, the quoting of string bytes, and string literals with their
escapes. The input is the list of bytes that are still to be read.
-/

namespace Fuzemsys.Fcc

variable {h : Host}

/-! ## Where the source is -/

structure Frontend (h : Host) where
  line : BitVec h.intBits
  oldline : BitVec h.intBits
  filechange : Bool
  /-- The buffer of 33 bytes. The name ends at the first zero. -/
  filename : List Byte

def Frontend.start : Frontend h where
  line := 1
  oldline := 0
  filechange := true
  filename := [0x3C, 0x73, 0x74, 0x64, 0x69, 0x6E, 0x3E] ++ List.replicate 26 0  -- <stdin>

/-- A C string in a buffer. -/
def cstring (buf : List Byte) : List Byte := buf.takeWhile (· ≠ 0)

def isspace (c : Byte) : Bool := c = 0x20 || (0x09 ≤ c && c ≤ 0x0D)

def isdigit (c : Byte) : Bool := 0x30 ≤ c && c ≤ 0x39

def isoctal (c : Byte) : Bool := 0x30 ≤ c && c ≤ 0x37

def isxdigit (c : Byte) : Bool :=
  isdigit c || (0x41 ≤ c && c ≤ 0x46) || (0x61 ≤ c && c ≤ 0x66)

/-! ## The # directive from cpp -/

/-- The quoted name: where the next character goes, the buffer, and the input after the quote. -/
def directiveName (p : Nat) (filename : List Byte) : List Byte → Nat × List Byte × List Byte
  | [] => (p, filename, [])
  | c :: inp =>
    if c = 0x22 then (p, filename, inp)
    else
      -- Skip magic names
      let p := if p = 0 ∧ c = 0x3C then 32 else p
      if c = 0x2F then directiveName 0 filename inp
      else if p < 32 then directiveName (p + 1) (filename.set p c) inp
      else directiveName p filename inp

/-- The end of a directive. Without a newline it is fatal. -/
def directiveEnd (s : Frontend h) (inp : List Byte) : Option (Frontend h × List Byte) :=
  match inp.dropWhile (· ≠ 0x0A) with
  | [] => none
  | _ :: inp => some (s, inp)

/-- What follows the character behind the line number. -/
def directiveFile (s : Frontend h) (inp : List Byte) : Option (Frontend h × List Byte) :=
  match inp with
  | 0x22 :: inp =>
    let (p, filename, inp) := directiveName 0 s.filename inp
    directiveEnd { s with filename := filename.set p 0, filechange := true } inp
  | inp => directiveEnd { s with filename := s.filename.set 0 0 } inp.tail

/-- `# line "file"`, after the `#`. -/
def directive (s : Frontend h) (inp : List Byte) : Option (Frontend h × List Byte) :=
  let inp := inp.dropWhile isspace
  let digits := inp.takeWhile isdigit
  let s := { s with line := digits.foldl (fun line c => 10 * line + c.setWidth _ - 0x30) 0 }
  match inp.dropWhile isdigit with
  | [] => none
  | c :: inp => if c = 0x0A then some (s, inp) else directiveFile s inp

/-! ## Token stream writing -/

def outbyteQuoted (c : Byte) : List Byte :=
  (if c = 0 ∨ c = 0xFF then [0xFF] else []) ++ [if c = 0 then 0xFE else c]

/-- The four bytes of a value. -/
def encodeValue (result : BitVec 32) : List Byte :=
  [result.setWidth 8, (result >>> 8).setWidth 8, (result >>> 16).setWidth 8, (result >>> 24).setWidth 8]

/-- The record of a new position. -/
def lineRecord (s : Frontend h) : List Byte :=
  [T_LINE.setWidth 8, (T_LINE >>> 8).setWidth 8, s.line.setWidth 8] ++
    if s.filechange then
      [(0x80 : Byte) ||| (s.line >>> 8).setWidth 8] ++ (cstring s.filename).take 32 ++ [0]
    else [(s.line >>> 8).setWidth 8]

/-- `tokdata` holds the encoded bytes of the token. -/
def writeToken (s : Frontend h) (c : Token) (tokdata : List Byte) : List Byte × Frontend h :=
  let token := [c.setWidth 8, (c >>> 8).setWidth 8] ++ tokdata
  if s.oldline ≠ s.line ∨ s.filechange then
    (lineRecord s ++ token, { s with oldline := s.line, filechange := false })
  else (token, s)

end Fuzemsys.Fcc
