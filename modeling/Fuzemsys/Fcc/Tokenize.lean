import Fuzemsys.Fcc.Number

/-!
# The tokenizer pass

`tokenize` takes one token off the source. The pass does it until the end of the file,
and writes each token with its data.
-/

open Fuzemsys.Lib

namespace Fuzemsys.Fcc.Tokenizer

variable {h : Host}

def T_SYMBOL : Token := 0x8000
def T_KEYWORD : Token := 0x1000
def T_POT : Token := 0x7F02
def T_SHLEQ : Token := 0x0110
def T_SHREQ : Token := 0x0111
def T_POINTSTO : Token := 0x0112
def T_ELLIPSIS : Token := 0x0113
def T_DOUBLESYM : Token := 0x0120
def T_SYMEQ : Token := 0x0200

def isalpha (c : Byte) : Bool := (0x41 ≤ c && c ≤ 0x5A) || (0x61 ≤ c && c ≤ 0x7A)

def iscsymstart (c : Byte) : Bool := c = 0x5F || isalpha c

def iscsymbol (c : Byte) : Bool := c = 0x5F || isalpha c || isdigit c

/-! ## Symbols -/

structure State (h : Host) where
  source : Source h
  /-- The names that are known, and their tokens. -/
  names : List (List Byte × Token)
  symnum : Token
  number : Number

def ascii (s : String) : List Byte := s.toList.map fun c => BitVec.ofNat 8 c.toNat

def keytab : List String :=
  ["char", "double", "enum", "float", "int", "long", "short", "signed", "struct", "union", "unsigned", "void",
    "auto", "extern", "register", "static", "const", "volatile",
    "break", "case", "continue", "default", "do", "else", "for", "goto", "if", "return", "sizeof", "switch",
    "typedef", "while", "restrict"]

/-- The keywords are the first names. -/
def keywords : List (List Byte × Token) := keytab.zipIdx.map fun (k, i) => (ascii k, T_KEYWORD + BitVec.ofNat 16 i)

def State.start (inp : List Byte) : State h where
  source := ⟨Frontend.start, inp, [], true, false⟩
  names := keywords
  symnum := T_SYMBOL
  number := ⟨0, 0⟩

def MAXNAME : Nat := 1024

theorem iscsymbol_pos {c : Byte} (hc : iscsymbol c = true) : c ≠ 0 := by
  rintro rfl
  cases hc

/-- Up to `n` more bytes of the name. The rest is dropped. -/
def getSymbolTail (n : Nat) (s : Source h) : Option (List Byte × Source h) :=
  match _hget : get s with
  | none => none
  | some (c, s') =>
    if _hsymbol : iscsymbol c then
      (getSymbolTail (n - 1) s').map fun (name, s) => (if n = 0 then name else c :: name, s)
    else (unget s' c).map fun s => ([], s)
termination_by s.weight
decreasing_by
  have := get_weight _hget
  have := weigh_pos (iscsymbol_pos _hsymbol)
  omega

/-- Also does keywords. A symbol too many is fatal. -/
def tokenizeSymbol (c : Byte) (s : State h) : Option (Token × State h) := do
  let (tail, source) ← getSymbolTail 14 s.source
  let s := { s with source := source }
  match s.names.lookup (c :: tail) with
  | some id => some (id, s)
  | none =>
    if s.names.length = MAXNAME then none
    else some (s.symnum, { s with names := (c :: tail, s.symnum) :: s.names, symnum := s.symnum + 1 })

/-! ## Characters and strings -/

def required (cr : Byte) (s : Source h) : Option (Source h) := do
  let (c, s) ← get s
  if c ≠ cr then unget s c else some s

/-- A character constant, after the first quote. -/
def tokenizeChar (s : Source h) : Option (List Byte × Source h) := do
  let (c, s) ← get s
  if c ≠ 0x5C then
    let (c', s) ← get s
    if c' ≠ 0x60 then
      let s ← unget s c'
      let s ← required 0x27 s
      some ([c, 0, 0, 0], s)
    else some ([c, 0, 0, 0], s)
  else
    let (c2, s) ← get s
    let (c, s) ← escaped s c2
    let s ← required 0x27 s
    some ([if c = T_INVALID then c2 else c.setWidth 8, 0, 0, 0], s)

/-- A turn of the loops of `tokenize_string`, after what has been written. -/
def stringTurn : List Byte × Source h → Option ((List Byte × Source h) ⊕ (List Byte × Source h))
  | (out, s) => do
    let (c, s) ← get s
    if c ≠ 0x22 then
      let (b, s) ← stringChar s c
      some (.inl (out ++ outbyteQuoted b, s))
    else
      let (c, s) ← getNb s
      if c = 0x22 then some (.inl (out, s))
      else
        let s ← unget s c
        some (.inr (out, s))

/-! ## Operators -/

def doublesym : List Byte := ascii "+-=<>|&"

def symeq : List Byte := ascii "+-/*^!|&%<>"

def unibyte : List Byte := ascii "()[]\x7b\x7d&*/%+-?:^<>|~!=;.,"

/-- The '=' cases, and symbols that only have a 1 byte form. -/
def tokenizeSingle (c c2 : Byte) (s : Source h) : Option (Token × Source h) :=
  match if c2 = 0x3D then symeq.idxOf? c else none with
  | some i => some (T_SYMEQ + BitVec.ofNat 16 i, s)
  | none => (unget s c2).map fun s => (if c ∈ unibyte then c.setWidth 16 else T_POT, s)

def tokenizeDots (c c2 : Byte) (s : Source h) : Option (Token × Source h) :=
  if c = 0x2E ∧ c2 = 0x2E then do
    let (c3, s) ← get s
    if c3 = 0x2E then some (T_ELLIPSIS, s)
    else
      let s ← unget s c3
      tokenizeSingle c c2 s
  else tokenizeSingle c c2 s

/-- Look for things like ++. -/
def tokenizeOperator (c c2 : Byte) (s : Source h) : Option (Token × Source h) :=
  match if c2 = c then doublesym.idxOf? c else none with
  | some i =>
    if c = 0x3C ∨ c = 0x3E then do
      let (c3, s) ← get s
      if c3 = 0x3D then some (if c = 0x3C then T_SHLEQ else T_SHREQ, s)
      else (unget s c3).map fun s => (T_DOUBLESYM + BitVec.ofNat 16 i, s)
    else some (T_DOUBLESYM + BitVec.ofNat 16 i, s)
  | none => if c = 0x2D ∧ c2 = 0x3E then some (T_POINTSTO, s) else tokenizeDots c c2 s

/-! ## tokenize -/

/-- What has been written, the token, and the data for it. -/
structure Output where
  out : List Byte
  token : Token
  tokdata : List Byte

section
variable (u : Unspecified h) (fuel : Nat)

def State.numeric (s : State h) (c : Byte) (neg : Bool) (source : Source h) : Outcome (Output × State h) :=
  (tokenizeNumeric u fuel s.number c neg source).bind fun (n, source) =>
  .done (⟨[], n.rtype, encodeValue n.result⟩, { s with source := source, number := n })

def State.string (s : State h) (source : Source h) : Outcome (Output × State h) :=
  let (token, front) := writeToken source.front T_STRING []
  (loop stringTurn fuel (token, { source with front := front })).bind fun (out, source) =>
  .done (⟨out ++ outbyteQuoted 0 ++ [0], T_STRING_END, []⟩, { s with source := source })

def State.operator (s : State h) (c : Byte) (source : Source h) : Outcome (Output × State h) :=
  (Outcome.ofOption (get source)).bind fun (c2, source) =>
  if c = 0x2D ∧ c2 = 0x2E then s.numeric u fuel c2 true source
  else if c = 0x2E ∧ isdigit c2 then
    (Outcome.ofOption (unget source c2)).bind fun source => s.numeric u fuel c false source
  else
    (Outcome.ofOption (tokenizeOperator c c2 source)).bind fun (token, source) =>
    .done (⟨[], token, []⟩, { s with source := source })

def tokenize (s : State h) : Outcome (Output × State h) :=
  (Outcome.ofOption (getNb s.source)).bind fun (c, source) =>
  if c = 0 then .done (⟨[], T_EOF, []⟩, { s with source := source })
  else if iscsymstart c then
    (Outcome.ofOption (tokenizeSymbol c { s with source := source })).bind fun (token, s) => .done (⟨[], token, []⟩, s)
  else if isdigit c then s.numeric u fuel c false source
  else if c = 0x27 then
    (Outcome.ofOption (tokenizeChar source)).bind fun (data, source) =>
    .done (⟨[], T_INTVAL, data⟩, { s with source := source })
  else if c = 0x22 then s.string fuel source
  else s.operator u fuel c source

/-- A token is written after what `tokenize` wrote itself. -/
def State.write (s : State h) (p : Output) : List Byte × State h :=
  let (bytes, front) := writeToken s.source.front p.token p.tokdata
  (p.out ++ bytes, { s with source := { s.source with front := front } })

/-- The loop of `main`, for at most so many tokens. -/
def passLoop : Nat → State h → Outcome (List Byte × State h)
  | 0, _ => .running
  | tokens + 1, s =>
    (tokenize u fuel s).bind fun (p, s) =>
    let (bytes, s) := s.write p
    if p.token = T_EOF then .done (bytes, s)
    else (passLoop tokens s).bind fun (rest, s) => .done (bytes ++ rest, s)

/-- The pass over a source. -/
def pass (s : State h) : Outcome (List Byte × State h) := passLoop u fuel fuel s

end

end Fuzemsys.Fcc.Tokenizer
