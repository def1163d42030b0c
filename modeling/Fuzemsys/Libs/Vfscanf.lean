import Fuzemsys.Libs.Vfprintf

/-!
# vfscanf

The driver and the conversions of numbers. A stream is the list of the characters it still
holds, of which `ungetc` puts one back. The conversions of strings, `%c`, `%s` and `%[`,
are a parameter.
-/

namespace Fuzemsys.Libs.Scanf

open Fuzemsys.Libs.Strtol

def EOF : Int := -1

/-- What is stored through the pointer arguments, which are numbered. -/
inductive Store where
  | short (arg : Nat) (v : BitVec 16)
  | long (arg : Nat) (v : BitVec 32)
  | char (arg offset : Nat) (v : Byte)
  deriving DecidableEq, Repr

/-- The lookahead, what the stream holds behind it, and what was done so far. -/
structure Scan where
  c : Int
  inp : List Byte
  cnt : Nat
  arg : Nat
  stores : List Store
  deriving DecidableEq, Repr

def fgetc : List Byte → Int × List Byte
  | [] => (EOF, [])
  | b :: inp => (b.toNat, inp)

def ungetc (c : Int) (inp : List Byte) : List Byte := BitVec.ofInt 8 c :: inp

def Scan.next (s : Scan) : Scan := { s with c := (fgetc s.inp).1, inp := (fgetc s.inp).2 }

def isSpace (c : Int) : Bool := isspace (BitVec.ofInt 8 c)

/-- `skip()`: the lookahead and the stream behind the blanks, and whether the scan is `done`. -/
def skipFrom : Int → List Byte → Int × List Byte × Bool
  | c, [] => if isSpace c then (EOF, [], true) else (c, [], false)
  | c, b :: inp =>
    if isSpace c then (if b.toNat < 1 then (b.toNat, inp, true) else skipFrom b.toNat inp)
    else (c, b :: inp, false)

def Scan.skip (s : Scan) : Scan × Bool :=
  let (c, inp, stop) := skipFrom s.c s.inp
  ({ s with c, inp }, stop)

/-! ## What stands between `%` and the conversion -/

structure Flags where
  store : Bool
  endnull : Bool
  width : Int
  wide1 : Int
  lval : Bool
  deriving DecidableEq, Repr

section
variable (wide : Bool)

/-- `int` has 32 bits or 16. -/
def toInt (x : Int) : Int := x.bmod (2 ^ (if wide then 32 else 16))

def startFlags : Flags := { store := true, endnull := true, width := -1, wide1 := 1, lval := wide }

/-- `while (isdigit(*++fmt))`. -/
def widthDigits : List Byte → Flags → Flags × List Byte
  | [], f => (f, [])
  | d :: fmt, f =>
    if isdigit d then
      let width := toInt wide ((if f.width = -1 then 0 else f.width) * 10 + (d.toNat - 48))
      widthDigits fmt { f with width, wide1 := width }
    else (f, d :: fmt)

/-- `tolower`. -/
def lower (c : Byte) : Byte := if isupper c then c ^^^ 0x20 else c

/-- From `fmtnxt` on. -/
def fmtnxt : List Byte → Flags → Flags × List Byte
  | [], f => (f, [])
  | c :: fmt, f =>
    if c = 0x2a then fmtnxt fmt { f with store := false, endnull := false }
    else if lower c = 0x6c then fmtnxt fmt { f with lval := true }
    else if lower c = 0x68 then fmtnxt fmt { f with lval := false }
    else (f, c :: fmt)

def flags (fmt : List Byte) : Flags × List Byte :=
  let (f, fmt) :=
    if fmt.head? = some 0x2a then ({ startFlags wide with store := false, endnull := false }, fmt.tail)
    else (startFlags wide, fmt)
  let (f, fmt) := widthDigits wide fmt f
  fmtnxt fmt f

/-! ## Numbers -/

/-- "0123456789ABCDEF" -/
def digits : List Byte :=
  [0x30, 0x31, 0x32, 0x33, 0x34, 0x35, 0x36, 0x37, 0x38, 0x39, 0x41, 0x42, 0x43, 0x44, 0x45, 0x46]

/-- The index found, which for a NUL is that of the end. -/
def strchr (s : List Byte) (c : Byte) : Option Nat := if c = 0 then some s.length else s.idxOf? c

/-- `p - digits` after `digits[base] = '\0'`. -/
def digitAt (base : Nat) (c : Int) : Option Nat := strchr (digits.take base) (toupper (BitVec.ofInt 8 c))

/-- `while (p && width-- && c)`, where `p` belongs to the lookahead. -/
def digitLoop (base : Nat) : Int → List Byte → BitVec 32 → Int → BitVec 32 × Int × List Byte
  | c, inp, n, width =>
    match digitAt base c with
    | none => (n, c, inp)
    | some d =>
      if width ≠ 0 ∧ c ≠ 0 then
        let n := n * BitVec.ofNat 32 base + BitVec.ofNat 32 d
        match inp with
        | [] => (n, EOF, [])
        | b :: inp => digitLoop base b.toNat inp n (toInt wide (width - 1))
      else (n, c, inp)
termination_by _ inp => inp.length

/-- `savnum`. -/
def savnum (f : Flags) (lval neg : Bool) (n : BitVec 32) (s : Scan) : Scan :=
  if f.store then
    let n := if neg then -n else n
    let stored := if lval then Store.long s.arg n else Store.short s.arg (n.setWidth 16)
    { s with cnt := s.cnt + 1, arg := s.arg + 1, stores := s.stores ++ [stored] }
  else s

/-- From `digits[base] = '\0'` on. The flag tells whether the scan goes on. -/
def number (f : Flags) (lval neg : Bool) (base : Nat) (s : Scan) : Scan × Bool :=
  if (s.c = 0 ∨ (digitAt base s.c).isNone) ∧ f.width ≠ 0 then (s, false)
  else
    let (n, c, inp) := digitLoop wide base s.c s.inp 0 f.width
    (savnum f lval neg n { s with c, inp }, true)

/-- `skip1`. -/
def skip1 (f : Flags) (lval neg : Bool) (base : Nat) (s : Scan) : Scan × Bool :=
  let s := s.next
  if s.c < 1 then (s, false) else number wide f lval neg base s

/-- An optional sign in front of a decimal number. -/
def signed (f : Flags) (lval : Bool) (s : Scan) : Scan × Bool :=
  if s.c = 0x2d then skip1 wide f lval true 10 s
  else if s.c = 0x2b then skip1 wide f lval false 10 s
  else number wide f lval false 10 s

/-- `%i`: the base is told by the text. -/
def anyBase (f : Flags) (lval : Bool) (s : Scan) : Scan × Bool :=
  if s.c = 0x25 then skip1 wide f lval false 2 s
  else if s.c = 0x30 then
    let s := s.next
    if s.c < 1 then (savnum f lval false 0 s, true)
    else if s.c = 0x78 ∨ s.c = 0x58 then skip1 wide f lval false 16 s
    else
      -- `zeroin` is inside the loop, behind its test.
      let (n, c, inp) := digitLoop wide 8 s.c s.inp 0 f.width
      (savnum f lval false n { s with c, inp }, true)
  else signed wide f lval s

/-- `numfmt`, where base 0 stands for any and `sign` for `%d`. -/
def numfmt (f : Flags) (letter : Byte) (base : Nat) (sign : Bool) (s : Scan) : Scan × Bool :=
  let (s, stop) := s.skip
  if stop then (s, false)
  else
    let lval := f.lval || isupper letter
    if base = 0 then anyBase wide f lval s
    else if sign then signed wide f lval s
    else number wide f lval false base s

/-! ## The driver -/

/-- A conversion of a string: its letter, the format behind it, and whether the scan goes on. -/
abbrev Strings := Flags → Byte → List Byte → Scan → Scan × List Byte × Bool

/-- `cmatch`. -/
def cmatch (c : Byte) (s : Scan) : Scan × Bool := if s.c ≠ c.toNat then (s, false) else (s.next, true)

/-- One directive of the format, which is not empty. -/
def directive (strings : Strings) (c : Byte) (fmt : List Byte) (s : Scan) : Scan × List Byte × Bool :=
  if c = 0x25 then
    match flags wide fmt with
    | (_, []) =>
      -- The format ends here, and its last character is matched.
      let (s, more) := cmatch (fmt.getLastD c) s
      (s, [], more)
    | (f, letter :: fmt) =>
      let num (base : Nat) (sign : Bool) :=
        let (s, more) := numfmt wide f letter base sign s
        (s, fmt, more)
      let l := lower letter
      if l = 0x69 then num 0 false
      else if l = 0x62 then num 2 false
      else if l = 0x6f then num 8 false
      else if l = 0x78 then num 16 false
      else if l = 0x64 then num 10 true
      else if l = 0x75 then num 10 false
      else if l = 0x63 ∨ l = 0x73 ∨ l = 0x5b then strings f letter fmt s
      else
        let (s, more) := cmatch letter s
        (s, fmt, more)
  else if isspace c then
    let (s, stop) := s.skip
    (s, fmt, !stop)
  else
    let (s, more) := cmatch c s
    (s, fmt, more)

/-- `while (c > 0)`. -/
def scanLoop (strings : Strings) : Nat → List Byte → Scan → Scan
  | 0, _, s => s
  | fuel + 1, fmt, s =>
    match fmt with
    | [] => s
    | c :: fmt =>
      if s.c > 0 then
        let (s, fmt, more) := directive wide strings c fmt s
        if more then scanLoop strings fuel fmt s else s
      else s

/-- What a call leaves. -/
structure Scanned where
  ret : Int
  stores : List Store
  /-- What the stream still holds. -/
  rest : List Byte
  deriving DecidableEq, Repr

/-- Every turn takes a character of the format, so its length is fuel enough. -/
def vfscanf (strings : Strings) (inp fmt : List Byte) : Scanned :=
  if fmt = [] then { ret := 0, stores := [], rest := inp }
  else
    let start : Scan := { c := (fgetc inp).1, inp := (fgetc inp).2, cnt := 0, arg := 0, stores := [] }
    let s := scanLoop wide strings fmt.length fmt start
    { ret := if s.c = EOF ∧ s.cnt = 0 then EOF else s.cnt, stores := s.stores,
      rest := if s.c = EOF then s.inp else ungetc s.c s.inp }

end

end Fuzemsys.Libs.Scanf
