import Fuzemsys.Fcc.Source

/-!
# Positions in the text of the preprocessor

What `print_toks_cpp` writes for a list of tokens with their positions, and what the tokenizer of the
compiler reads of it. Lines of `#asm` are not modelled.
-/

namespace Fuzemsys.Cpp

open Fcc

/-! ## The writer -/

structure Options where
  p_flag : Bool
  debug_mode : Bool
  alltok : Bool

structure Writer where
  last_name : List Byte
  last_line : Int
  outpos : Nat
  indent : Int
  paren : Int

/-- The digits of a number. -/
def _ultoa (val : Nat) : List Byte :=
  if val / 10 = 0 then [BitVec.ofNat 8 (0x30 + val % 10)] else _ultoa (val / 10) ++ [BitVec.ofNat 8 (0x30 + val % 10)]
termination_by val
decreasing_by omega

def _ltoa (val : Int) : List Byte := if val < 0 then 0x2d :: _ultoa val.natAbs else _ultoa val.natAbs

/-- `while (c_lineno > last_line && ...)`: the newlines, and the line after them. -/
def newlines (o : Options) (c_lineno : Int) : Nat → Int → List Byte × Int
  | 0, last_line => ([], last_line)
  | fuel + 1, last_line =>
    if c_lineno > last_line ∧ (o.p_flag ∨ c_lineno < last_line + 4) ∧ last_line > 0 ∧ !o.debug_mode then
      let (out, last_line) := newlines o c_lineno fuel (last_line + 1)
      (0x0a :: out, last_line)
    else ([], last_line)

/-- `# line` with the name where it is given. -/
def marker (c_lineno : Int) (name : Option (List Byte)) : List Byte :=
  [0x23, 0x20] ++ _ltoa c_lineno ++ (name.elim [] fun name => [0x20, 0x22] ++ name ++ [0x22]) ++ [0x0a]

/-- What `hash_line` writes. -/
def hash_line (o : Options) (c_fname : List Byte) (c_lineno : Int) (w : Writer) : List Byte × Writer :=
  let last_line := if w.last_name ≠ c_fname then -1 else w.last_line
  if c_lineno ≠ last_line ∨ last_line ≤ 0 then
    let (out, last_line) :=
      if w.outpos ≠ 0 then ([0x0a], if last_line > 0 then last_line + 1 else last_line) else (([] : List Byte), last_line)
    let (more, last_line) := newlines o c_lineno (c_lineno - last_line).toNat last_line
    let mark :=
      if !o.p_flag ∧ (c_lineno ≠ last_line ∨ last_line ≤ 0) then
        marker c_lineno (if last_line ≤ 0 then some c_fname else none)
      else []
    (out ++ (more ++ mark), { w with outpos := 0, last_name := c_fname, last_line := c_lineno })
  else ([], { w with last_line := last_line })

def TK_CASE : Nat := 0x302
def TK_DEFAULT : Nat := 0x306

inductive Kind where
  | TK_STR | TK_FILE | TK_LINE
  | other (i : Nat)
  deriving DecidableEq

/-- What `gettok` returns, with the position of the input then. After a quote mark follow the texts up to the
other quote mark and its own text. -/
structure Out where
  kind : Kind
  curword : List Byte
  quoted : List (List Byte)
  c_fname : List Byte
  c_lineno : Int

def Out.code (t : Out) : Nat :=
  match t.kind with
  | .TK_STR => 261
  | .TK_FILE => 262
  | .TK_LINE => 263
  | .other i => i

/-- The characters of the token. -/
def Out.text (t : Out) : List Byte :=
  match t.kind with
  | .TK_STR => t.curword
  | .TK_FILE => 0x22 :: t.c_fname ++ [0x22]
  | .TK_LINE => _ltoa t.c_lineno
  | .other i => t.curword ++ if i = 0x22 ∨ i = 0x27 then t.quoted.flatten else []

def pr_indent (count : Int) : List Byte := List.replicate (min count 10).toNat 0x09

/-- `}` and the labels of a switch, and `)`, in front of a token. -/
def Writer.closing (w : Writer) (i : Nat) : Writer :=
  { w with
    indent := if i = 0x7d ∨ i = TK_CASE ∨ i = TK_DEFAULT then w.indent - 1 else w.indent
    paren := if i = 0x29 then w.paren - 1 else w.paren }

/-- `{` and the labels, `;` and `(`, behind it. -/
def Writer.opening (w : Writer) (i : Nat) : Writer :=
  let paren := if i = 0x3b then 0 else w.paren
  { w with
    indent := if i = 0x7b ∨ i = TK_CASE ∨ i = TK_DEFAULT then w.indent + 1 else w.indent
    paren := if i = 0x28 then paren + 1 else paren }

def Writer.indentation (w : Writer) : Int := w.indent + if w.paren ≠ 0 then 1 else 0

/-- The blanks in front of a token when not all tokens are kept. -/
def spacing (o : Options) (t : Out) (w : Writer) : List Byte × Writer :=
  if o.alltok ∨ t.kind = .TK_STR then ([], w)
  else
    let w := w.closing t.code
    if w.outpos ≠ 0 then ([0x20], { w with outpos := w.outpos + 1 }.opening t.code)
    else (pr_indent w.indentation, w.opening t.code)

/-- One turn of the loop. -/
def print_tok (o : Options) (t : Out) (w : Writer) : List Byte × Writer :=
  let (line, w) := hash_line o t.c_fname t.c_lineno w
  let (blanks, w) := spacing o t w
  (line ++ (blanks ++ t.text), { w with outpos := w.outpos + t.text.length })

def Writer.start : Writer := ⟨[], -1, 0, 0, 0⟩

variable {h : Host}

def Source.start (text : List Byte) : Source h := ⟨Frontend.start, text, [], true, false⟩

/-- A character, with the line and file name in force when it is read. -/
structure Seen (h : Host) where
  char : Byte
  line : BitVec h.intBits
  file : List Byte

def seen (c : Byte) (s : Source h) : Seen h := ⟨c, s.front.line, cstring s.front.filename⟩

/-- The name without its directories. -/
def baseName (name : List Byte) : List Byte := (name.reverse.takeWhile (· ≠ 0x2f)).reverse

def isBlank (c : Byte) : Bool := c = 0x20 || c = 0x09 || c = 0x0a

/-- The characters are those of the tokens with blanks between them, and each token starts at its position. -/
inductive Placed : List (Seen h) → List Out → Prop
  | done : Placed [] []
  | blank {x : Seen h} {tr ts} : isBlank x.char = true → Placed tr ts → Placed (x :: tr) ts
  | token {x : Seen h} {more tr t ts} : t.text = x.char :: more.map Seen.char → x.line = BitVec.ofInt _ t.c_lineno →
      x.file = (baseName t.c_fname).take 32 → Placed tr ts → Placed (x :: (more ++ tr)) (t :: ts)

/-! ## Where positions survive -/

/-- A name that a marker can hold. -/
structure NameRight (name : List Byte) : Prop where
  chars : ∀ c ∈ name, c ≠ 0x22 ∧ c ≠ 0
  /-- It fits into `last_name`. -/
  short : name.length ≤ 255
  magic : (baseName name).head? ≠ some 0x3c

/-- What the writer is given: a text of one line without the NUL, and a line number. -/
structure Out.WellFormed (t : Out) : Prop where
  some : t.text ≠ []
  chars : ∀ c ∈ t.text, c ≠ 0x0a ∧ c ≠ 0
  line : 1 ≤ t.c_lineno

/-- The token does not look like a marker at the start of its line. -/
structure Out.Right (o : Options) (t : Out) (w : Writer) : Prop where
  name : NameRight t.c_fname
  hash : t.text.head? = some 0x23 → (w.last_name = t.c_fname ∧ w.last_line = t.c_lineno ∧ w.outpos ≠ 0) ∨
    (o.alltok = false ∧ t.kind ≠ .TK_STR ∧ 0 < (w.closing t.code).indentation)

/-- A backslash at the end of a token does not continue its line. -/
def Joined (t : Out) (ts : List Out) : Prop :=
  t.text.getLast? = some 0x5c → ∀ u ∈ ts.head?, u.c_fname = t.c_fname ∧ u.c_lineno = t.c_lineno

def AllRight (o : Options) : List Out → Writer → Prop
  | [], _ => True
  | t :: ts, w => t.Right o w ∧ Joined t ts ∧ AllRight o ts (print_tok o t w).2

end Fuzemsys.Cpp
