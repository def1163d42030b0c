import Fuzemsys.Fcc.ConstantRight
import Fuzemsys.Fcc.FloatScale

/-!
# Reading a decimal floating constant
-/

open Fuzemsys.Lib

namespace Fuzemsys.Fcc

/-! ## Texts -/

/-- An `e`, a sign or none, and digits. -/
structure ExponentText where
  mark : Byte
  sign : List Byte
  digits : List Byte
  mark_right : mark = 0x45 ∨ mark = 0x65
  sign_right : sign ∈ ([[], [0x2B], [0x2D]] : List (List Byte))
  digits_right : ∀ d ∈ digits, isdigit d = true
  digits_some : digits ≠ []

namespace ExponentText

def text (x : ExponentText) : List Byte := x.mark :: x.sign ++ x.digits

def power (x : ExponentText) : Int :=
  if x.sign = [0x2D] then -(digitsValue 10 0 x.digits : Int) else digitsValue 10 0 x.digits

end ExponentText

/-- Digits with a point, or an exponent, or both. -/
structure FloatText where
  whole : List Byte
  fraction : Option (List Byte)
  exponent : Option ExponentText
  whole_right : ∀ d ∈ whole, isdigit d = true
  fraction_right : ∀ d ∈ fraction.getD [], isdigit d = true
  digits_some : whole ++ fraction.getD [] ≠ []
  marked : fraction.isSome ∨ exponent.isSome

namespace FloatText

def point (t : FloatText) : List Byte := t.fraction.elim [] fun ds => 0x2E :: ds

def text (t : FloatText) : List Byte := t.whole ++ t.point ++ t.exponent.elim [] ExponentText.text

def wholeValue (t : FloatText) : Nat := digitsValue 10 0 t.whole

def power (t : FloatText) : Int := t.exponent.elim 0 ExponentText.power

/-- The mathematical value. -/
def value (t : FloatText) : Rat :=
  (digitsValue 10 0 (t.whole ++ t.fraction.getD []) : Rat) / 10 ^ (t.fraction.getD []).length * 10 ^ t.power

/-- No zero stands in front of other digits or of an exponent. -/
def Direct (t : FloatText) : Prop := t.whole.head? = some 0x30 → t.whole = [0x30] ∧ t.fraction.isSome = true

end FloatText

/-! ## Fractions -/

variable {h : Host} {s : Source h} {c last : Byte} {ds more rest : List Byte}

/-- The sum of a fraction, from the place `n` of the table on. -/
def fractionSum (n : Nat) (frac : BitVec 32) : List Byte → BitVec 32
  | [] => frac
  | d :: ds =>
    let scale := fraction.getD n 0
    if scale ≠ 0 then fractionSum (n + 1) (frac + digit d * scale) ds else fractionSum n frac ds

namespace FloatText

variable {t : FloatText}

/-- What `convert_fix32` is given. -/
def fix32 (h : Host) (t : FloatText) : Parsed h :=
  .fix32 0 (BitVec.ofNat 32 t.wholeValue) (fractionSum 0 0 (t.fraction.getD [])) (BitVec.ofInt h.intBits t.power)

/-- The counts of the digits fit in 32 bits. -/
structure Fits (t : FloatText) : Prop where
  whole : t.wholeValue < 2 ^ 32
  exponent : t.power.natAbs < 2 ^ 32

end FloatText

end Fuzemsys.Fcc
