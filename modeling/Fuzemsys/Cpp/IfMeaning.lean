import Fuzemsys.Cpp.IfExpression
import Mathlib.Data.Int.Basic

/-!
# What C says of expressions behind `#if`

Constants, the grouping of the operators, macros, and values: integers of the type `long`, or
`unsigned long` where an operand has it.
-/

namespace Fuzemsys.Cpp

open Fuzemsys.Libs.Strtol (Byte digitOf isDigitBelow valueOf)

/-! ## Constants -/

inductive Radix where
  | decimal | octal
  | hex (x : Byte)
  deriving DecidableEq, Repr

namespace Radix

def base : Radix → Nat
  | decimal => 10
  | octal => 8
  | hex _ => 16

def mark : Radix → List Byte
  | hex x => [0x30, x]
  | _ => []

def Starts (digits : List Byte) : Radix → Prop
  | decimal => digits.head? ≠ some 0x30
  | octal => digits.head? = some 0x30
  | hex x => x = 0x78 ∨ x = 0x58

end Radix

/-- An integer constant. -/
structure IntConst where
  radix : Radix
  digits : List Byte
  suffix : List Byte
  deriving DecidableEq, Repr

namespace IntConst

def isU (c : Byte) : Prop := c = 0x75 ∨ c = 0x55
def isL (c : Byte) : Prop := c = 0x6c ∨ c = 0x4c

instance (c : Byte) : Decidable (isU c) := inferInstanceAs (Decidable (_ ∨ _))
instance (c : Byte) : Decidable (isL c) := inferInstanceAs (Decidable (_ ∨ _))

/-- The suffixes of C. -/
def Suffix : List Byte → Prop
  | [] => True
  | [a] => isU a ∨ isL a
  | [a, b] => isU a ∧ isL b ∨ isL a ∧ isU b
  | _ => False

structure WellFormed (c : IntConst) : Prop where
  digits : c.digits ≠ [] ∧ ∀ d ∈ c.digits, isDigitBelow c.radix.base d = true
  starts : c.radix.Starts c.digits
  suffix : Suffix c.suffix

def value (c : IntConst) : Nat := valueOf c.radix.base (c.digits.filterMap digitOf)

def isUnsigned (c : IntConst) : Bool := c.suffix.any (fun b => isU b) || 2 ^ 31 ≤ c.value

end IntConst

/-- A character constant. -/
inductive CharConst where
  | plain (c : Byte)
  | simple (c : Byte)
  | octal (digits : List Byte)
  | hex (digits : List Byte)
  deriving DecidableEq, Repr

namespace CharConst

def text : CharConst → List Byte
  | plain c => [c]
  | simple c => [0x5c, c]
  | octal ds => 0x5c :: ds
  | hex ds => 0x5c :: 0x78 :: ds

/-- The escapes of one character and their values. -/
def escapes : List (Byte × Byte) :=
  [(0x6e, 10), (0x74, 9), (0x76, 11), (0x62, 8), (0x72, 13), (0x66, 12), (0x61, 7), (0x5c, 0x5c), (0x3f, 0x3f),
    (0x27, 0x27), (0x22, 0x22)]

def code : CharConst → Byte
  | plain c => c
  | simple c => (escapes.lookup c).getD 0
  | octal ds => BitVec.ofNat 8 (valueOf 8 (ds.filterMap digitOf))
  | hex ds => BitVec.ofNat 8 (valueOf 16 (ds.filterMap digitOf))

def WellFormed : CharConst → Prop
  | plain c => c ≠ 0x27 ∧ c ≠ 0x5c ∧ c ≠ 0x0a
  | simple c => (escapes.lookup c).isSome
  | octal ds => 1 ≤ ds.length ∧ ds.length ≤ 3 ∧ (∀ d ∈ ds, isDigitBelow 8 d = true) ∧ valueOf 8 (ds.filterMap digitOf) < 256
  | hex ds => ds ≠ [] ∧ (∀ d ∈ ds, isDigitBelow 16 d = true) ∧ valueOf 16 (ds.filterMap digitOf) < 256

def value (signedChar : Bool) (c : CharConst) : Int := if signedChar then c.code.toInt else c.code.toNat

end CharConst

/-! ## Expressions -/

inductive Exp where
  | num (c : IntConst)
  | quot (c : CharConst)
  | defined (x : String)
  | definedIn (x : String)
  | word (x : String)
  | paren (e : Exp)
  | plus (e : Exp)
  | minus (e : Exp)
  | not (e : Exp)
  | compl (e : Exp)
  | binary (o : Op) (l r : Exp)

/-- A token, or `defined` with its name, which no macro replaces. -/
inductive Item where
  | tok (t : Tok)
  | defined (x : String)
  | definedIn (x : String)

/-- The tokens of a constant as `get_onetok` splits and cuts them. -/
def IntConst.items (c : IntConst) : List Item :=
  match c.suffix with
  | [a, b] =>
    if isL a then [.tok (.TK_NUM ((c.radix.mark ++ c.digits ++ [a]).take 127)), .tok (.TK_WORD (if b = 0x75 then "u" else "U"))]
    else [.tok (.TK_NUM ((c.radix.mark ++ c.digits ++ c.suffix).take 127))]
  | _ => [.tok (.TK_NUM ((c.radix.mark ++ c.digits ++ c.suffix).take 127))]

namespace Exp

def items : Exp → List Item
  | num c => c.items
  | quot c => [.tok (.TK_QUOT ((0x27 :: c.text ++ [0x27]).take 128))]
  | defined x => [.defined x]
  | definedIn x => [.definedIn x]
  | word x => [.tok (.TK_WORD x)]
  | paren e => .tok .LPAREN :: e.items ++ [.tok .RPAREN]
  | plus e => .tok (.op .PLUS) :: e.items
  | minus e => .tok (.op .MINUS) :: e.items
  | not e => .tok .BANG :: e.items
  | compl e => .tok .TILDE :: e.items
  | binary o l r => l.items ++ .tok (.op o) :: r.items

/-- The larger, the tighter. -/
def level : Exp → Nat
  | binary o _ _ => o.prio
  | _ => 11

/-- The grammar of C. -/
def Grammatical : Exp → Prop
  | num c => c.WellFormed
  | quot c => c.WellFormed
  | defined _ | definedIn _ => True
  | word x => x ≠ "defined"
  | paren e => e.Grammatical
  | plus e | minus e | not e | compl e => e.Grammatical ∧ e.level = 11
  | binary o l r => l.Grammatical ∧ o.prio ≤ l.level ∧ r.Grammatical ∧ o.prio < r.level

end Exp

/-! ## Macros -/

def truth (p : Prop) [Decidable p] : Int := if p then 1 else 0

/-- A result of the type `long`, or of `unsigned long`. -/
def fits (u : Bool) (v : Int) : Option Int :=
  if u then some (v % 2 ^ 32) else if -2 ^ 31 ≤ v ∧ v < 2 ^ 31 then some v else none

/-- The conversion of an operand to the type of both. -/
def convert (u : Bool) (v : Int) : Int := if u then v % 2 ^ 32 else v

def ofBits (u : Bool) (b : BitVec 32) : Int := if u then b.toNat else b.toInt

/-- The operators, on operands of one type. -/
def Op.meaning (u : Bool) (a b : Int) : Op → Option Int
  | STAR => fits u (a * b)
  | SLASH => if b = 0 then none else fits u (a.tdiv b)
  | PERCENT => if b = 0 then none else (fits u (a.tdiv b)).map fun _ => a.tmod b
  | PLUS => fits u (a + b)
  | MINUS => fits u (a - b)
  | TK_RIGHT_OP => if 0 ≤ b ∧ b < 32 then some (a / 2 ^ b.toNat) else none
  | TK_LEFT_OP => if 0 ≤ b ∧ b < 32 then fits u (a * 2 ^ b.toNat) else none
  | LT => some (truth (a < b))
  | GT => some (truth (a > b))
  | TK_LE_OP => some (truth (a ≤ b))
  | TK_GE_OP => some (truth (a ≥ b))
  | TK_EQ_OP => some (truth (a = b))
  | TK_NE_OP => some (truth (a ≠ b))
  | AND => some (ofBits u (BitVec.ofInt 32 a &&& BitVec.ofInt 32 b))
  | XOR => some (ofBits u (BitVec.ofInt 32 a ^^^ BitVec.ofInt 32 b))
  | OR => some (ofBits u (BitVec.ofInt 32 a ||| BitVec.ofInt 32 b))
  | TK_AND_OP => some (truth (a ≠ 0 ∧ b ≠ 0))
  | TK_OR_OP => some (truth (a ≠ 0 ∨ b ≠ 0))

/-- The type of the operands: that of the left one for a shift. -/
def Op.unsignedOperands (lu ru : Bool) : Op → Bool
  | TK_RIGHT_OP | TK_LEFT_OP => lu
  | _ => lu || ru

/-- The result is an `int`. -/
def Op.isTruth : Op → Bool
  | LT | GT | TK_LE_OP | TK_GE_OP | TK_EQ_OP | TK_NE_OP | TK_AND_OP | TK_OR_OP => true
  | _ => false

namespace Exp

def unsigned : Exp → Bool
  | num c => c.isUnsigned
  | paren e | plus e | minus e | compl e => e.unsigned
  | binary o l r => !o.isTruth && o.unsignedOperands l.unsigned r.unsigned
  | _ => false

def operands (o : Op) (l r : Exp) : Bool := o.unsignedOperands l.unsigned r.unsigned

section
variable (M : Macros) (signedChar : Bool)

/-- The value, if there is one. -/
def value : Exp → Option Int
  | num c => if c.value < 2 ^ 32 then some c.value else none
  | quot c => some (c.value signedChar)
  | defined x => some (truth (M x).isSome)
  | definedIn x => some (truth (M x).isSome)
  | word _ => some 0
  | paren e => e.value
  | plus e => e.value
  | minus e => e.value.bind fun v => fits e.unsigned (-v)
  | not e => e.value.map fun v => truth (v = 0)
  | compl e => e.value.map fun v => ofBits e.unsigned (~~~(BitVec.ofInt 32 v))
  | binary o l r =>
    if o = .TK_AND_OP then l.value.bind fun a => if a = 0 then some 0 else r.value.map fun b => truth (b ≠ 0)
    else if o = .TK_OR_OP then l.value.bind fun a => if a = 0 then r.value.map fun b => truth (b ≠ 0) else some 1
    else
      l.value.bind fun a => r.value.bind fun b =>
        o.meaning (operands o l r) (convert (operands o l r) a) (convert (operands o l r) b)

end

end Exp

/-! ## Where the code agrees -/

/-- The sign of the operands counts. -/
def Op.signSensitive : Op → Bool
  | SLASH | PERCENT | TK_RIGHT_OP | LT | GT | TK_LE_OP | TK_GE_OP => true
  | _ => false

/-- Unsigned operands give the same when they are taken as signed ones. -/
def Op.SignFree (o : Op) (a b : Int) : Prop :=
  ∀ v, o.meaning true a b = some v →
    ∃ v', o.meaning false (a.bmod (2 ^ 32)) (b.bmod (2 ^ 32)) = some v' ∧ v' % 2 ^ 32 = v % 2 ^ 32

/-- At most 127 characters, and no `u` behind an `l`. -/
def IntConst.Read (c : IntConst) : Prop :=
  (c.radix.mark ++ c.digits ++ c.suffix).length ≤ 127 ∧ ∀ a b, c.suffix = [a, b] → ¬ isL a

/-- `\v`, `\b`, `\r` and `\a` are taken for letters, and hexadecimal ones for an `x`. -/
def CharConst.Read : CharConst → Prop
  | simple c => c ≠ 0x76 ∧ c ≠ 0x62 ∧ c ≠ 0x72 ∧ c ≠ 0x61
  | hex ds => valueOf 16 (ds.filterMap digitOf) = 0x78
  | _ => True

namespace Exp

/-- An operand on the right is taken up to its first operator and what stands right of that. -/
def Single : Exp → Prop
  | binary _ l _ => l.level = 11
  | _ => True

def startsNot : Exp → Bool
  | not _ | compl _ => true
  | _ => false

/-- Where the code agrees with C. -/
def Right (M : Macros) (signedChar : Bool) : Exp → Prop
  | num c => c.Read
  | quot c => c.Read
  | defined _ | definedIn _ | word _ => True
  | paren e | not e | compl e => e.Right M signedChar
  | plus e | minus e => e.Right M signedChar ∧ e.startsNot = false
  | binary o l r =>
    l.Right M signedChar ∧ r.Right M signedChar ∧ r.Single ∧
      (o.signSensitive = true → operands o l r = true → ∀ a b, l.value M signedChar = some a → r.value M signedChar = some b →
        o.SignFree (convert true a) (convert true b))

end Exp

end Fuzemsys.Cpp
