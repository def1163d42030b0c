import Fuzemsys.Libs.Strtol

/-!
# The expressions behind `#if`

The tokens of one line and of the macros in it, and the functions that evaluate them. `long` has
32 bits. Calls of macros with arguments are not modelled.
-/

namespace Fuzemsys.Cpp

open Fuzemsys.Libs.Strtol (Byte digitOf isDigitBelow valueOf)

/-- The binary operators. -/
inductive Op where
  | STAR | SLASH | PERCENT | PLUS | MINUS | TK_RIGHT_OP | TK_LEFT_OP | LT | GT | TK_LE_OP | TK_GE_OP
  | TK_EQ_OP | TK_NE_OP | AND | XOR | OR | TK_AND_OP | TK_OR_OP
  deriving DecidableEq, Repr

/-- A token, with `curword` where it is read. -/
inductive Tok where
  | TK_NUM (curword : List Byte)
  | TK_QUOT (curword : List Byte)
  | TK_WORD (curword : String)
  | op (o : Op)
  | BANG | TILDE | LPAREN | RPAREN | DOLLAR | NEWLINE
  | other (c : Nat)
  deriving DecidableEq, Repr

/-! ## Where tokens come from -/

inductive Macro where
  /-- A macro without arguments, by its text. -/
  | object (text : List Tok)
  | function
  deriving Repr

/-- The table of macros. -/
abbrev Macros := String → Option Macro

def MAX_DEFINE : Nat := 8

/-- The text being read and the texts that wait behind it, each with the macro it belongs to. -/
structure Source where
  def_ref : Option String
  def_ptr : List Tok
  saved : List (Option String × List Tok)
  deriving DecidableEq, Repr

/-- `chget` leaves a text at its end. -/
def pop : Option String → List Tok → List (Option String × List Tok) → Tok × Source
  | ref, t :: text, saved => (t, ⟨ref, text, saved⟩)
  | _, [], (ref, text) :: saved => pop ref text saved
  | ref, [], [] => (.NEWLINE, ⟨ref, [], []⟩)

def Source.next (s : Source) : Tok × Source := pop s.def_ref s.def_ptr s.saved

/-- `F_INUSE`. -/
def Source.inUse (s : Source) (name : String) : Bool :=
  s.def_ref = some name || s.saved.any fun t => t.1 = some name

def Source.push (s : Source) (name : String) (text : List Tok) : Source :=
  ⟨some name, text, (s.def_ref, s.def_ptr) :: s.saved⟩

/-- `get_onetok(SKIP_SPACE)`, or `gettok_nosub` without `subst`. -/
def get_onetok (M : Macros) (subst : Bool) : Nat → Source → Option (Tok × Source)
  | 0, _ => none
  | fuel + 1, s =>
    match s.next with
    | (.TK_WORD w, s) =>
      match M w with
      | none => some (.TK_WORD w, s)
      | some m =>
        if !subst || s.inUse w then some (.TK_WORD w, s)
        -- "Preprocessor recursion overflow"
        else if s.saved.length ≥ MAX_DEFINE then some (.TK_WORD w, s)
        else match m with
          | .function => if s.next.1 = .LPAREN then none else some (.TK_WORD w, s)
          | .object [] => get_onetok M subst fuel s
          | .object text => get_onetok M subst fuel (s.push w text)
    | (t, s) => some (t, s)

/-! ## Values -/

def long (b : Bool) : BitVec 32 := if b then 1 else 0

/-- The level at which `get_expression` returns in front of the operator. -/
def Op.prio : Op → Nat
  | STAR | SLASH | PERCENT => 10
  | PLUS | MINUS => 9
  | TK_RIGHT_OP | TK_LEFT_OP => 8
  | LT | GT | TK_LE_OP | TK_GE_OP => 7
  | TK_EQ_OP | TK_NE_OP => 6
  | AND => 5
  | XOR => 4
  | OR => 3
  | TK_AND_OP => 2
  | TK_OR_OP => 1

def Op.apply (lvalue rvalue : BitVec 32) : Op → BitVec 32
  | STAR => lvalue * rvalue
  | SLASH => if rvalue ≠ 0 then lvalue.sdiv rvalue else lvalue
  | PERCENT => if rvalue ≠ 0 then lvalue.srem rvalue else lvalue
  | PLUS => lvalue + rvalue
  | MINUS => lvalue - rvalue
  | TK_RIGHT_OP => lvalue.sshiftRight rvalue.toNat
  | TK_LEFT_OP => lvalue <<< rvalue.toNat
  | LT => long (lvalue.slt rvalue)
  | GT => long (rvalue.slt lvalue)
  | TK_LE_OP => long (lvalue.sle rvalue)
  | TK_GE_OP => long (rvalue.sle lvalue)
  | TK_EQ_OP => long (lvalue = rvalue)
  | TK_NE_OP => long (lvalue ≠ rvalue)
  | AND => lvalue &&& rvalue
  | XOR => lvalue ^^^ rvalue
  | OR => lvalue ||| rvalue
  | TK_AND_OP => long (lvalue ≠ 0 ∧ rvalue ≠ 0)
  | TK_OR_OP => long (lvalue ≠ 0 ∨ rvalue ≠ 0)

/-- `strtoul(s, 0, 0)` of a text that starts with a digit: the largest value if it does not fit. -/
def strtoul (s : List Byte) : BitVec 32 :=
  let (base, s) :=
    match s with
    | 0x30 :: 0x78 :: s => (16, s)
    | 0x30 :: 0x58 :: s => (16, s)
    | 0x30 :: s => (8, s)
    | s => (10, s)
  BitVec.ofNat 32 (min (valueOf base ((s.takeWhile (isDigitBelow base)).filterMap digitOf)) (2 ^ 32 - 1))

/-- A character as an integer: `char` is signed in some builds. -/
def ofChar (signedChar : Bool) (v : BitVec 32) : BitVec 32 :=
  if signedChar then (v.setWidth 8).signExtend 32 else (v.setWidth 8).setWidth 32

def isOctal (c : Byte) : Bool := 0x30 ≤ c && c ≤ 0x37

/-- The value of a character constant. -/
def quotValue (signedChar : Bool) (curword : List Byte) : BitVec 32 :=
  let char (i : Nat) : Byte := curword.getD i 0
  let digit (i : Nat) : BitVec 32 := (char i).setWidth 32 - 0x30
  let value : BitVec 32 :=
    if char 1 = 0x5c then
      if isOctal (char 2) then
        if isOctal (char 3) then
          if isOctal (char 4) then (((digit 2 <<< 3) + digit 3) <<< 3) + digit 4
          else (digit 2 <<< 3) + digit 3
        else digit 2
      else if char 2 = 0x6e then 10
      else if char 2 = 0x66 then 12
      else if char 2 = 0x74 then 9
      else (char 2).signExtend 32
    else (char 1).signExtend 32
  ofChar signedChar value

/-! ## The evaluation -/

structure Pre where
  source : Source
  curtok : Tok
  errors : List String
  deriving DecidableEq, Repr

section
variable (M : Macros) (signedChar : Bool)

/-- `curtok = get_onetok(SKIP_SPACE);` -/
def Pre.get (fuel : Nat) (s : Pre) : Option Pre :=
  (get_onetok M true fuel s.source).map fun (t, source) => { s with source := source, curtok := t }

def Pre.cerror (s : Pre) (text : String) : Pre := { s with errors := s.errors ++ [text] }

/-- `while (curtok == '+' || curtok == '-')`: whether the sign is a minus. -/
def signs : Nat → Bool → Pre → Option (Bool × Pre)
  | 0, _, _ => none
  | fuel + 1, sign, s =>
    if s.curtok = .op .PLUS then (s.get M fuel).bind (signs fuel sign)
    else if s.curtok = .op .MINUS then (s.get M fuel).bind (signs fuel !sign)
    else some (sign, s)

/-- Behind `defined`. -/
def definedValue (fuel : Nat) (s : Pre) : Option (BitVec 32 × Pre) := do
  let (t, source) ← get_onetok M false fuel s.source
  let s := { s with source := source, curtok := t }
  if t = .LPAREN then
    let (t, source) ← get_onetok M false fuel s.source
    let s := { s with source := source }
    match t with
    | .TK_WORD x =>
      let (t, source) ← get_onetok M false fuel s.source
      let s := { s with source := source }
      if t = .RPAREN then (s.get M fuel).map fun s => (long (M x).isSome, s)
      else some (long (M x).isSome, s.cerror "'defined' keyword requires closing ')'")
    | _ => some (0, s.cerror "'defined' keyword requires argument")
  else
    let entry := match t with
      | .TK_WORD x => (M x).isSome
      | _ => false
    (s.get M fuel).map fun s => (long entry, s)

mutual

def get_exp_value : Nat → Pre → Option (BitVec 32 × Pre)
  | 0, _ => none
  | fuel + 1, s =>
    if s.curtok = .BANG then
      (s.get M fuel).bind fun s => (get_exp_value fuel s).map fun (v, s) => (long (v = 0), s)
    else if s.curtok = .TILDE then
      (s.get M fuel).bind fun s => (get_exp_value fuel s).map fun (v, s) => (~~~v, s)
    else
      (signs M fuel false s).bind fun (sign, s) =>
        (primary fuel s).map fun (value, s) => (if sign then -value else value, s)

/-- Behind the signs. -/
def primary : Nat → Pre → Option (BitVec 32 × Pre)
  | 0, _ => none
  | fuel + 1, s =>
    match s.curtok with
    | .TK_NUM curword => (s.get M fuel).map fun s => (strtoul curword, s)
    | .TK_QUOT curword => (s.get M fuel).map fun s => (quotValue signedChar curword, s)
    | .TK_WORD curword =>
      if curword = "defined" then definedValue M fuel s else (s.get M fuel).map fun s => (0, s)
    | .LPAREN =>
      (get_expression fuel 0 s).bind fun (value, s) =>
        if s.curtok = .RPAREN then (s.get M fuel).map fun s => (value, s)
        else some (value, { s with curtok := .DOLLAR }.cerror "Expected ')'")
    | _ => some (0, s)

def get_expression : Nat → Nat → Pre → Option (BitVec 32 × Pre)
  | 0, _, _ => none
  | fuel + 1, prio, s =>
    (s.get M fuel).bind fun s => (get_exp_value fuel s).bind fun (lvalue, s) => expLoop fuel prio lvalue s

/-- `do ... while (prio == 0 && !no_op)`. -/
def expLoop : Nat → Nat → BitVec 32 → Pre → Option (BitVec 32 × Pre)
  | 0, _, _, _ => none
  | fuel + 1, prio, lvalue, s =>
    match s.curtok with
    | .op o =>
      if prio ≥ o.prio then some (lvalue, s)
      else
        (get_expression fuel o.prio s).bind fun (rvalue, s) =>
          if prio = 0 then expLoop fuel prio (o.apply lvalue rvalue) s else some (o.apply lvalue rvalue, s)
    | _ => some (lvalue, s)

end

end

end Fuzemsys.Cpp
