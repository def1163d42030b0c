import Fuzemsys.Fcc.Number

/-!
# Integer constants

What C makes of the text of an integer constant, and the errors that its digits report.
-/

open Fuzemsys.Lib

namespace Fuzemsys.Fcc

variable {h : Host}

/-! ## Errors -/

def Parsed.errors : Parsed h → Nat
  | oversized => 1
  | _ => 0

/-- How often `overflow` is called for the digits of an octal number. -/
def octFormatErrors (sum : BitVec 32) (c : Byte) (s : Source h) : Option Nat :=
  if _hdigit : isoctal c then
    match _hget : get s with
    | none => none
    | some (c', s') =>
      let n := (sum <<< 3) + digit c
      (octFormatErrors n c' s').map fun errors => if n < sum then errors + 1 else errors
  else some 0
termination_by s.weight + weigh c
decreasing_by
  have := get_weight _hget
  have := weigh_pos (isoctal_pos _hdigit)
  omega

/-- How many errors `parse_digits` reports about a range. -/
def rangeErrors (u : Unspecified h) (c : Byte) (s : Source h) : Option Nat :=
  if c = 0x30 then do
    let (c, s) ← get s
    if c = 0x78 ∨ c = 0x58 then (hexFormat u s).map fun p => p.1.errors
    else if c = 0x2E then (decFormat c s).map fun p => p.1.errors
    else octFormatErrors 0 c s
  else (decFormat c s).map fun p => p.1.errors

/-! ## Constants -/

inductive Radix where
  | decimal
  | octal
  | hexadecimal (capital : Bool)
  deriving DecidableEq

namespace Radix

def base : Radix → Nat
  | decimal => 10
  | octal => 8
  | hexadecimal _ => 16

def isDigit : Radix → Byte → Bool
  | decimal => isdigit
  | octal => isoctal
  | hexadecimal _ => isxdigit

/-- What is in front of the digits. -/
def mark : Radix → List Byte
  | decimal => []
  | octal => [0x30]
  | hexadecimal capital => [0x30, if capital then 0x58 else 0x78]

/-- The digits that there may be after the mark. -/
def Begins : Radix → List Byte → Prop
  | decimal, ds => ds ≠ [] ∧ ds.head? ≠ some 0x30
  | octal, _ => True
  | hexadecimal _, ds => ds ≠ []

end Radix

/-- The value of a digit. -/
def digitValue (d : Byte) : Nat :=
  if d.toNat < 0x3A then d.toNat - 0x30 else if d.toNat < 0x61 then d.toNat - 0x37 else d.toNat - 0x57

def digitsValue (base v : Nat) (ds : List Byte) : Nat := ds.foldl (fun v d => v * base + digitValue d) v

/-- A `u` and an `l` in any order and case, or one of them, or none. -/
def IsSuffix (ls : List Byte) : Prop :=
  ls.map toupper ∈ ([[], [0x55], [0x4C], [0x55, 0x4C], [0x4C, 0x55]] : List (List Byte))

instance (ls : List Byte) : Decidable (IsSuffix ls) := inferInstanceAs (Decidable (_ ∈ _))

/-- An integer constant. -/
structure Constant where
  radix : Radix
  digits : List Byte
  suffix : List Byte
  digits_right : ∀ d ∈ digits, radix.isDigit d = true
  begins : radix.Begins digits
  suffix_right : IsSuffix suffix

namespace Constant

def text (k : Constant) : List Byte := k.radix.mark ++ k.digits ++ k.suffix

def value (k : Constant) : Nat := digitsValue k.radix.base 0 k.digits

def isUnsigned (k : Constant) : Bool := (k.suffix.map toupper).contains 0x55

def isLong (k : Constant) : Bool := (k.suffix.map toupper).contains 0x4C

/-- The types that the constant may have, in order. -/
def types (k : Constant) : List Token :=
  if k.isUnsigned then if k.isLong then [T_ULONGVAL] else [T_UINTVAL, T_ULONGVAL]
  else if k.isLong then [T_LONGVAL, T_ULONGVAL]
  else if k.radix = .decimal then [T_INTVAL, T_LONGVAL, T_ULONGVAL]
  else [T_INTVAL, T_UINTVAL, T_LONGVAL, T_ULONGVAL]

end Constant

/-- The largest value of a type. -/
def maxValue (t : Token) : Nat :=
  if t = T_INTVAL then 0x7FFF else if t = T_UINTVAL then 0xFFFF else if t = T_LONGVAL then 0x7FFFFFFF else 0xFFFFFFFF

/-- The first type that holds the value. -/
def Constant.type (k : Constant) : Option Token := k.types.find? fun t => k.value ≤ maxValue t

/-! ## What is reported -/

/-- A wrapped sum is less than the one before it. -/
def falls (base v : Nat) : List Byte → Prop
  | [] => False
  | d :: ds =>
    let n := (v * base + digitValue d) % 2 ^ 32
    n < v ∨ falls base n ds

/-- How often a decimal sum is halved for the next digit. -/
def halvings (c sum : BitVec 32) : Nat :=
  if _hwrap : sum * 10 + c < sum then halvings c (sum >>> 1) + 1 else 0
termination_by sum.toNat
decreasing_by exact half_lt _hwrap

/-- The sum that the next digit fits in. -/
def fitted (c sum : BitVec 32) : BitVec 32 :=
  if _hwrap : sum * 10 + c < sum then fitted c (sum >>> 1) else sum * 10 + c
termination_by sum.toNat
decreasing_by exact half_lt _hwrap

def allHalvings (sum : BitVec 32) : List Byte → Nat
  | [] => 0
  | d :: ds => halvings (digit d) sum + allHalvings (fitted (digit d) sum) ds

/-- How many hexadecimal digits are left out, from the first one that wraps. -/
def skipped (v : Nat) : List Byte → Nat
  | [] => 0
  | d :: ds => if v * 16 % 2 ^ 32 < v then ds.length + 1 else skipped (v * 16 % 2 ^ 32 + digitValue d) ds

/-- The counts are kept in an `unsigned`. -/
def Constant.Reported (h : Host) (k : Constant) : Prop :=
  match k.radix with
  | .decimal => falls 10 0 k.digits ∧ ¬2 ^ h.intBits ∣ allHalvings 0 k.digits
  | .octal => falls 8 0 k.digits
  | .hexadecimal _ => ¬2 ^ h.intBits ∣ 4 * skipped 0 k.digits

end Fuzemsys.Fcc
