import Mathlib.Data.BitVec
import Mathlib.Data.List.TakeWhile

/-!
# strtol and strtoul

A string is the list of its characters before the NUL, and reading behind the list gives
the NUL. Both functions share one conversion, which a flag should tell apart.
-/

namespace Fuzemsys.Libs.Strtol

abbrev Byte := BitVec 8

/-! ## Characters -/

def isspace (c : Byte) : Bool :=
  c = 0x20 || c = 0x09 || c = 0x0a || c = 0x0d || c = 0x0c || c = 0x0b

def isdigit (c : Byte) : Bool := 0x30 ≤ c && c ≤ 0x39
def isupper (c : Byte) : Bool := 0x41 ≤ c && c ≤ 0x5a
def islower (c : Byte) : Bool := 0x61 ≤ c && c ≤ 0x7a
def isalpha (c : Byte) : Bool := isupper c || islower c
def isalnum (c : Byte) : Bool := isdigit c || isalpha c
def isascii (c : Byte) : Bool := c &&& 0x80 = 0
def toupper (c : Byte) : Byte := if 0x61 ≤ c && c ≤ 0x7a then c ^^^ 0x20 else c

/-! ## The conversion -/

def ERANGE : Nat := 34
def EINVAL : Nat := 22

def LONG_MAX : BitVec 32 := 2147483647
def LONG_MIN : BitVec 32 := -2147483647
def ULONG_MAX : BitVec 32 := 0xffffffff

/-- What a call returns and stores. `endptr` is the number of characters in front of the pointer,
where one was asked for, and `errno` what was assigned to it. -/
structure Conv where
  value : BitVec 32
  endptr : Option Nat
  errno : Option Nat
  deriving DecidableEq, Repr

def sign : List Byte → Bool × List Byte
  | c :: s => if c = 0x2d then (true, s) else if c = 0x2b then (false, s) else (false, c :: s)
  | [] => (false, [])

def startsZero (s : List Byte) : Bool := s.head? = some 0x30

/-- `nptr[1] == 'X' || nptr[1] == 'x'`. -/
def thenX (s : List Byte) : Bool := s[1]? = some 0x58 || s[1]? = some 0x78

/-- The base and the text behind its mark: a `0x` takes two characters, an octal `0` one. -/
def markOf (base : Int) (s : List Byte) : Int × List Byte :=
  let (base, s) :=
    if startsZero s then
      let (base, s) := if (base = 0 ∨ base = 16) ∧ thenX s then (16, s.drop 2) else (base, s)
      if base = 0 then (8, s.drop 1) else (base, s)
    else (base, s)
  (if base = 0 then 10 else base, s)

/-- `ch -= (ch <= '9' ? '0' : 'A' - 10)`. -/
def chOf (c : Byte) : Byte :=
  let ch := toupper c
  ch - (if ch ≤ 0x39 then 0x30 else 0x41 - 10)

/-- The digits: the number, whether it overflowed, and the text left. -/
def convLoop (base : Int) : List Byte → BitVec 32 → Bool → BitVec 32 × Bool × List Byte
  | [], number, overflow => (number, overflow, [])
  | c :: s, number, overflow =>
    if isascii c && isalnum c then
      let ch := chOf c
      if (ch.toNat : Int) > base then (number, overflow, c :: s)
      else
        let newv := number * BitVec.ofInt 32 base + ch.setWidth 32
        convLoop base s newv (overflow || newv < number)
    else (number, overflow, c :: s)

/-- From the label `done` on: the value and the error of a conversion. -/
def done (uns negative : Bool) (number : BitVec 32) (overflow : Bool) : BitVec 32 × Option Nat :=
  if overflow then (if uns then ULONG_MAX else if negative then LONG_MIN else LONG_MAX, some ERANGE)
  else if !uns && (number = LONG_MIN && negative) then (LONG_MIN, some ERANGE)
  else
    let (number, errno) := if !uns && number > LONG_MAX then (LONG_MAX, some ERANGE) else (number, none)
    (if negative then -number else number, errno)

def do_conv (nptr : List Byte) (endptr : Bool) (base : Int) (uns : Bool) : Conv :=
  if base = 1 ∨ base > 36 ∨ base < 0 then
    { value := 0, endptr := if endptr then some 0 else none, errno := some EINVAL }
  else
    let (negative, s) := sign (nptr.dropWhile isspace)
    let (base, s) := markOf base s
    let (number, overflow, rest) := convLoop base s 0 false
    let (value, errno) := done uns negative number overflow
    { value, endptr := if endptr then some (nptr.length - rest.length) else none, errno }

def strtol (nptr : List Byte) (endptr : Bool) (base : Int) : Conv := do_conv nptr endptr base true

def strtoul (nptr : List Byte) (endptr : Bool) (base : Int) : Conv := do_conv nptr endptr base false

/-! ## What C specifies -/

/-- The value of a digit or letter. -/
def digitOf (c : Byte) : Option Nat :=
  if isdigit c then some (c.toNat - 48)
  else if isupper c then some (c.toNat - 55)
  else if islower c then some (c.toNat - 87)
  else none

def isDigitBelow (base : Nat) (c : Byte) : Bool := (digitOf c).any (· < base)

/-- What follows blanks and sign. -/
structure Subject where
  /-- The characters in front: blanks, sign and a mark `0x`. -/
  before : Nat
  negative : Bool
  base : Nat
  text : List Byte
  /-- A `0x` without a hexadecimal digit stood here. -/
  lone : Bool

/-- Whether a `0x` stands here, and the character behind it. -/
def hexMark (base : Nat) (s : List Byte) : Option (Option Byte) :=
  if (base = 0 ∨ base = 16) ∧ startsZero s ∧ thenX s then some s[2]? else none

def subject (nptr : List Byte) (base : Nat) : Subject :=
  let (negative, s) := sign (nptr.dropWhile isspace)
  let before := nptr.length - s.length
  match hexMark base s with
  | some next =>
    if next.any (isDigitBelow 16) then
      { before := before + 2, negative, base := 16, text := s.drop 2, lone := false }
    else
      { before, negative, base := if base = 0 then 8 else base, text := s, lone := true }
  | none =>
    { before, negative, base := if base = 0 then (if startsZero s then 8 else 10) else base, text := s,
      lone := false }

/-- The longest run of digits below the base. -/
def Subject.run (t : Subject) : List Byte := t.text.takeWhile (isDigitBelow t.base)

def valueOf (base : Nat) (digits : List Nat) : Nat := digits.foldl (fun n d => n * base + d) 0

def Subject.value (t : Subject) : Nat := valueOf t.base (t.run.filterMap digitOf)

def Subject.endOf (t : Subject) : Nat := if t.run = [] then 0 else t.before + t.run.length

/-- The value of the digits is exact, or cut to the limits of the type with `ERANGE`. -/
def outcome (isLong : Bool) (t : Subject) : BitVec 32 × Option Nat :=
  let signed : Int := if t.negative then -t.value else t.value
  if isLong then
    if -2 ^ 31 ≤ signed ∧ signed < 2 ^ 31 then (BitVec.ofInt 32 signed, none)
    else (if t.negative then LONG_MIN else LONG_MAX, some ERANGE)
  else if t.value < 2 ^ 32 then (BitVec.ofInt 32 signed, none)
  else (ULONG_MAX, some ERANGE)

def specified (isLong : Bool) (nptr : List Byte) (endptr : Bool) (base : Int) : Conv :=
  if base = 1 ∨ base > 36 ∨ base < 0 then
    { value := 0, endptr := if endptr then some 0 else none, errno := some EINVAL }
  else
    let t := subject nptr base.toNat
    let (value, errno) := outcome isLong t
    { value, endptr := if endptr then some t.endOf else none, errno }

/-! ## Where the conversion does that -/

/-- The characters that the code takes as digits although they are not below the base. -/
def Subject.extra (t : Subject) : List Byte :=
  (t.text.drop t.run.length).takeWhile (isDigitBelow (t.base + 1))

/-- The code's digits are those of C, or without `endptr` the others change nothing. -/
def Subject.DigitsRight (t : Subject) (endptr : Bool) : Prop :=
  if t.lone then endptr = false ∧ ¬ t.text[2]?.any (isDigitBelow 17)
  else if t.extra = [] then endptr = false ∨ t.run ≠ [] ∨ t.before = 0
  else endptr = false ∧ ∀ d ∈ t.extra.filterMap digitOf, 2 ^ 32 ∣ t.value * (t.base - 1) + d

/-- The value is below 2^31, or 2^31 with a minus sign for `strtol`. -/
def Subject.Small (t : Subject) (isLong : Bool) : Prop :=
  t.value < 2 ^ 31 ∨ isLong = true ∧ t.negative = true ∧ t.value = 2 ^ 31

def ConvRight (isLong : Bool) (nptr : List Byte) (endptr : Bool) (base : Int) : Prop :=
  base = 1 ∨ base > 36 ∨ base < 0 ∨
    (subject nptr base.toNat).Small isLong ∧ (subject nptr base.toNat).DigitsRight endptr

end Fuzemsys.Libs.Strtol
