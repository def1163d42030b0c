import Fuzemsys.Libs.Vfprintf

/-!
# What C specifies for printf

A format is a list of pieces, and a piece prints a field: what stands in front of the digits,
the digits or characters, and the padding up to the width.
-/

namespace Fuzemsys.Libs.Printf

open Fuzemsys.Libs.Strtol Fuzemsys.Libs.Ltostr

/-! ## Formats -/

/-- A width or a precision: digits, or the next argument. -/
inductive Amount where
  | digits (ds : List Byte)
  | star
  deriving DecidableEq, Repr

inductive Letter where
  | d | i | u | o | x | X | c | s
  deriving DecidableEq, Repr

def Letter.char : Letter → Byte
  | d => 0x64 | i => 0x69 | u => 0x75 | o => 0x6f | x => 0x78 | X => 0x58 | c => 0x63 | s => 0x73

structure Conv where
  flags : List Byte
  width : Option Amount
  prec : Option Amount
  long : Bool
  letter : Letter
  deriving DecidableEq, Repr

inductive Piece where
  | char (c : Byte)
  | percent
  | conv (c : Conv)
  deriving DecidableEq, Repr

def Amount.text : Amount → List Byte
  | digits ds => ds
  | star => [0x2a]

def Conv.text (c : Conv) : List Byte :=
  c.flags ++ ((c.width.elim [] Amount.text) ++
    ((c.prec.elim [] fun p => 0x2e :: p.text) ++ ((if c.long then [0x6c] else []) ++ [c.letter.char])))

def Piece.text : Piece → List Byte
  | char c => [c]
  | percent => [0x25, 0x25]
  | conv c => 0x25 :: c.text

def formatOf (ps : List Piece) : List Byte := ps.flatMap Piece.text

def isFlag (c : Byte) : Bool := c = 0x2d || c = 0x2b || c = 0x20 || c = 0x30 || c = 0x23

/-- Digits with a value, where a width does not start with the flag `0`. -/
def Amount.WellFormed (first : Bool) : Amount → Prop
  | digits ds => (∀ d ∈ ds, isdigit d = true) ∧ (first = true → ds ≠ [] ∧ ds.head? ≠ some 0x30)
  | star => True

structure Conv.WellFormed (c : Conv) : Prop where
  flags : ∀ b ∈ c.flags, isFlag b = true
  width : ∀ a ∈ c.width, a.WellFormed true
  prec : ∀ a ∈ c.prec, a.WellFormed false

def Piece.WellFormed : Piece → Prop
  | char c => c ≠ 0x25
  | percent => True
  | conv c => c.WellFormed

/-! ## Fields -/

/-- A field of `width` characters, padded on the right, with zeros behind the mark, or on the left. -/
def layout (left zeros : Bool) (pad : Byte) (mark body : List Byte) (width : Nat) : List Byte :=
  let k := width - (mark.length + body.length)
  if left then mark ++ body ++ List.replicate k pad
  else if zeros then mark ++ List.replicate k 0x30 ++ body
  else List.replicate k pad ++ mark ++ body

def digitsValue (ds : List Byte) : Nat := valueOf 10 (ds.map fun d => d.toNat - 48)

/-- The number that a width or precision says, as it is given. -/
def Amount.value : Amount → List Arg → Option (Int × List Arg)
  | digits ds, args => some (digitsValue ds, args)
  | star, args => vaInt args

/-- A conversion whose width and precision are known. -/
structure Told where
  flags : List Byte
  letter : Letter
  left : Bool
  width : Nat
  /-- What C takes for the precision. -/
  prec : Option Nat

def Told.has (t : Told) (flag : Byte) : Bool := t.flags.contains flag

def told (c : Conv) (w p : Option Int) : Told :=
  { flags := c.flags, letter := c.letter, left := c.flags.contains 0x2d || w.any (· < 0),
    width := (w.getD 0).natAbs, prec := p.bind fun v => if v < 0 then none else some v.toNat }

/-- The argument of a number: whether it is negative, and its magnitude. -/
def intMagnitude (v : Int) : Bool × Nat := (decide (v < 0), v.natAbs)

def Letter.base : Letter → Nat
  | o => 8 | x => 16 | X => 16 | _ => 10

def Letter.signed : Letter → Bool
  | d => true | i => true | _ => false

/-- A digit in the case of the conversion. -/
def Letter.digit (l : Letter) (d : Nat) : Byte :=
  if l = X ∧ 9 < d then BitVec.ofNat 8 (65 - 10 + d) else charOf d

/-- At least as many digits as the precision says, and none for zero with precision 0. -/
def Told.digits (t : Told) (mag : Nat) : List Byte :=
  let ds := if t.prec = some 0 ∧ mag = 0 then [] else (digitsOf t.letter.base mag).map t.letter.digit
  let ds := List.replicate (t.prec.getD 0 - ds.length) 0x30 ++ ds
  if t.letter = .o ∧ t.has 0x23 ∧ ds.head? ≠ some 0x30 then 0x30 :: ds else ds

def Told.sign (t : Told) : List Byte := if t.has 0x2b then [0x2b] else if t.has 0x20 then [0x20] else []

def Told.mark (t : Told) (neg : Bool) (mag : Nat) : List Byte :=
  if t.letter.signed then (if neg then [0x2d] else t.sign)
  else if t.has 0x23 ∧ mag ≠ 0 ∧ t.letter = .x then [0x30, 0x78]
  else if t.has 0x23 ∧ mag ≠ 0 ∧ t.letter = .X then [0x30, 0x58]
  else []

def Told.number (t : Told) (neg : Bool) (mag : Nat) : List Byte :=
  layout t.left (t.has 0x30 && t.prec.isNone) 0x20 (t.mark neg mag) (t.digits mag) t.width

def Told.string (t : Told) (s : List Byte) : List Byte :=
  layout t.left false 0x20 [] (s.take (t.prec.getD s.length)) t.width

/-- A value of the type that a conversion asks for. -/
inductive Value where
  | number (neg : Bool) (mag : Nat)
  | char (c : Byte)
  | string (s : List Byte)

def Told.field (t : Told) : Value → List Byte
  | .number neg mag => t.number neg mag
  | .char c => layout t.left false 0x20 [] [c] t.width
  | .string s => t.string s

/-- The sign that the last of its flags asks for. -/
def signOf (flags : List Byte) : Byte := flags.foldl (fun s b => if b = 0x20 ∨ b = 0x2b then b else s) 0

/-- The precision as the code keeps it: a lone point leaves it unset. -/
def codePrec (a : Option Amount) (p : Option Int) : Int := if a = some (.digits []) then -1 else p.getD (-1)

end Fuzemsys.Libs.Printf
