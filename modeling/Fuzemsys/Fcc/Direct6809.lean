import Fuzemsys.Fcc.Exec6809
import Fuzemsys.Fcc.TreeAssign

/-!
# Operators with a constant on the right

`gen_direct` of the 6809 code generator, for the operators with a constant as right operand.
-/

open Fuzemsys.Lib

namespace Fuzemsys.Fcc.Code6800

open Fuzemsys.Fcc.Tree

/-! ## Nodes -/

/-- What `gen_direct` reads of a node whose right side is a constant. `type` is also the type of the left side. -/
structure DirectNode (h : Host) where
  op : Op
  type : CType
  rightType : CType
  value : BitVec h.longBits

/-- Zero is an error, or void. -/
def getSize (t : CType) : Nat :=
  if PTR t ≠ 0 then 2
  else if t = CSHORT ∨ t = USHORT then 2
  else if t = CCHAR ∨ t = UCHAR then 1
  else if t = CLONG ∨ t = ULONG ∨ t = FLOAT then 4
  else if t = 0x30 ∨ t = 0x38 ∨ t = DOUBLE then 8
  else 0

structure Options where
  opt : Nat
  optsize : Bool

namespace Track

def modifyA (v : Byte) (t : Track) : Track := { t with aVal := v, dValid := false }

def modifyB (v : Byte) (t : Track) : Track := { t with bVal := v, dValid := false }

end Track

/-! ## Comparisons -/

/-- The flags of the comparison, and the routine that makes a truth value of them. -/
def cmpDirect {h : Host} (n : DirectNode h) (uop op : BoolRoutine) : Option Printer :=
  let s := getSize n.rightType
  let v := (n.value.setWidth h.intBits).toNat
  let op := if isUnsigned n.rightType then uop else op
  if s = 1 then
    some (Printer.andThen (printf [immediate .cmpb (v % 2 ^ 8), ⟨.lbsr, .routine op⟩]) (note Track.invalidateB))
  else if s = 2 then
    some (Printer.andThen (printf [immediate .subd (v % 2 ^ 16), ⟨.lbsr, .routine op⟩]) (note Track.invalidateWork))
  else none

/-! ## Fast multiplies -/

def mulSteps (n : Nat) : Nat :=
  if n > 1 then (if n % 2 = 1 then 4 else 0) + 2 + mulSteps (n / 2) else 0

def countMulCost (n : Nat) : Nat := if n % 256 = 0 then 3 + mulSteps (n / 256) else mulSteps n

/-- The shifts, and how many values were pushed. -/
def mulLoop (n : Nat) : List Line × Nat :=
  if n > 1 then
    let (code, pops) := mulLoop (n / 2)
    if n % 2 = 1 then (⟨.pshs, .list .d⟩ :: plain .lslb :: plain .rola :: code, pops + 1)
    else (plain .lslb :: plain .rola :: code, pops)
  else ([], 0)

def mulCode (n : Nat) : List Line := (mulLoop n).1 ++ List.replicate (mulLoop n).2 ⟨.addd, .postInc2 .s⟩

/-- Write the multiply for any value > 0 -/
def writeMul (n : Nat) : Printer :=
  if n % 256 = 0 then
    Printer.andThen (loadAB .m6809).print (Printer.andThen (loadBConst .m6809 0).print (printf (mulCode (n / 256))))
  else printf (mulCode n)

def canFastMul (o : Options) (s n : Nat) : Bool :=
  let cost := if o.optsize then 8 else 15 + 3 * o.opt
  if s > 2 then false else n = 0 || countMulCost n ≤ cost

def genFastMul (n : Nat) : Printer :=
  if n = 0 then (loadDConst .m6809 0).print else Printer.andThen (writeMul n) (note Track.invalidateWork)

def halvings (n : Nat) : Nat := if n > 1 then halvings (n / 2) + 1 else 0

def genFastDiv (n s : Nat) (u : Bool) : Option Printer :=
  if s ≠ 2 then none
  else if n = 1 then some (printf [])
  else if n = 256 ∧ u then some (Printer.andThen (loadBA .m6809).print (loadAConst .m6809 0).print)
  else if n &&& (n - 1) ≠ 0 then none
  else
    let shift := if u then Mnemonic.lsra else Mnemonic.asra
    some (Printer.andThen (printf (List.replicate (halvings n) [plain shift, plain .rorb]).flatten)
      (note Track.invalidateWork))

/-! ## gen_direct -/

/-- A byte of a constant. -/
def byteAt {n : Nat} (v : BitVec n) (i : Nat) : Byte := (v >>> (8 * i)).setWidth 8

/-- Add to the upper half with the carry of the lower one. -/
def addUpper {n : Nat} (v : BitVec n) : Printer :=
  Printer.andThen (swapDY .m6809).print
    (Printer.andThen (printf [immediate .adcb (byteAt v 2).toNat, immediate .adca (byteAt v 3).toNat])
      (swapDY .m6809).print)

/-- Add to Y:D. A lower half that is left out has no carry. -/
def addLong {h : Host} (v : BitVec h.longBits) : Printer :=
  if v.setWidth 16 ≠ 0 then Printer.andThen (addDConst .m6809 (v.setWidth 16)).print (addUpper v)
  else printf [⟨.leay, .index ((v >>> 16).setWidth h.intBits).toNat .y⟩]

/-- Bytes of one are skipped, bytes of zero clear. -/
def andByte (m clear : Mnemonic) (v : Byte) : List Line :=
  if v = 0xFF then [] else if v ≠ 0 then [immediate m v.toNat] else [plain clear]

/-- In the upper half bytes of one are not skipped. -/
def andUpper (m clear : Mnemonic) (v : Byte) : List Line := if v ≠ 0 then [immediate m v.toNat] else [plain clear]

def orByte (m : Mnemonic) (v : Byte) : List Line := if v ≠ 0 then [immediate m v.toNat] else []

def eorByte (m com : Mnemonic) (v : Byte) : List Line :=
  if v = 0xFF then [plain com] else if v ≠ 0 then [immediate m v.toNat] else []

/-- Code for Y. -/
def swapped (code : List Line) : Printer :=
  Printer.andThen (swapDY .m6809).print (Printer.andThen (printf code) (swapDY .m6809).print)

def Printer.when (c : Prop) [Decidable c] (f : Printer) : Printer := if c then f else printf []

def andDirect {n : Nat} (s : Nat) (v : BitVec n) : Printer :=
  Printer.andThen (printf (andByte .andb .clrb (byteAt v 0)))
    (Printer.andThen (Printer.when (byteAt v 0 ≠ 0xFF) (note fun t => t.modifyB (t.bVal &&& byteAt v 0)))
      (Printer.andThen
        (Printer.when (s ≥ 2) (Printer.andThen (printf (andByte .anda .clra (byteAt v 1)))
          (note fun t => t.modifyA (t.aVal &&& byteAt v 1))))
        (Printer.when (s = 4) (swapped (andUpper .andb .clrb (byteAt v 2) ++ andUpper .anda .clra (byteAt v 3))))))

/-- The third byte is used for both bytes of the upper half. -/
def orDirect {n : Nat} (s : Nat) (v : BitVec n) : Printer :=
  Printer.andThen (printf (orByte .orb (byteAt v 0)))
    (Printer.andThen (Printer.when (byteAt v 0 ≠ 0) (note fun t => t.modifyB (t.bVal ||| byteAt v 0)))
      (Printer.andThen
        (Printer.when (s ≥ 2) (Printer.andThen (printf (orByte .ora (byteAt v 1)))
          (note fun t => t.modifyA (t.aVal ||| byteAt v 1))))
        (Printer.when (s = 4) (swapped (orByte .orb (byteAt v 2) ++ orByte .ora (byteAt v 2))))))

def hatDirect {n : Nat} (s : Nat) (v : BitVec n) : Printer :=
  Printer.andThen (printf (eorByte .eorb .comb (byteAt v 0)))
    (Printer.andThen (note fun t => t.modifyB (t.bVal ^^^ byteAt v 0))
      (Printer.andThen
        (Printer.when (s ≥ 2) (Printer.andThen (printf (eorByte .eora .coma (byteAt v 1)))
          (note fun t => t.modifyA (t.aVal ^^^ byteAt v 1))))
        (Printer.when (s = 4) (swapped (eorByte .eorb .comb (byteAt v 2) ++ eorByte .eora .coma (byteAt v 3))))))

/-- No printer if it returns 0, and the node is left to the stack. -/
def genDirect {h : Host} (o : Options) (n : DirectNode h) : Option Printer :=
  let s := getSize n.type
  let v := n.value
  let shift : ShiftNode := ⟨s, isUnsigned n.type, some (v.setWidth h.intBits).toNat⟩
  match n.op with
  | .PLUS =>
    if s = 4 then some (addLong v)
    else if s = 2 then some (addDConst .m6809 (v.setWidth 16)).print
    else if s = 1 then some (addBConst (v.setWidth 8)).print
    else none
  | .MINUS =>
    if s = 4 then some (addLong (-v))
    else if s = 2 then some (addDConst .m6809 ((-v).setWidth 16)).print
    else if s = 1 then
      some (Printer.andThen (addBConst ((-v).setWidth 8)).print
        (note fun t => { t with bVal := t.bVal - v.setWidth 8 }))
    else none
  | .AND => some (andDirect s v)
  | .OR => some (orDirect s v)
  | .HAT => some (hatDirect s v)
  | .LTLT => (leftShift .m6809 shift).map Helper.print
  | .GTGT => (rightShift .m6809 shift).map Helper.print
  | .EQEQ => cmpDirect n .booleq .booleq
  | .BANGEQ => cmpDirect n .boolne .boolne
  | .LT => cmpDirect n .boolult .boollt
  | .GT => cmpDirect n .boolugt .boolgt
  | .LTEQ => cmpDirect n .boolule .boolle
  | .GTEQ => cmpDirect n .booluge .boolge
  | .SLASH => if s ≤ 2 then genFastDiv s (v.setWidth h.intBits).toNat (isUnsigned n.type) else none
  | .STAR =>
    let v := (v.setWidth 16).toNat
    if s ≤ 2 ∧ canFastMul o s v then some (genFastMul v) else none
  | _ => none

/-! ## What C wants -/

/-- A pointer is compared as an unsigned number. -/
def unsignedValue (t : CType) : Bool := PTR t ≠ 0 || isUnsigned t

def arithmetic (op : Op) (unsigned : Bool) {w m : Nat} (x : BitVec w) (v : BitVec m) : BitVec w :=
  let c := v.setWidth w
  match op with
  | .PLUS => x + c
  | .MINUS => x - c
  | .AND => x &&& c
  | .OR => x ||| c
  | .HAT => x ^^^ c
  | .STAR => x * c
  | .SLASH => if unsigned then x / c else x.sdiv c
  | .LTLT => x <<< v.toNat
  | _ => if unsigned then x >>> v.toNat else x.sshiftRight v.toNat

def comparison (op : Op) (unsigned : Bool) {w : Nat} (x c : BitVec w) : Bool :=
  match op with
  | .EQEQ => x == c
  | .BANGEQ => x != c
  | .LT => if unsigned then x.ult c else x.slt c
  | .GT => if unsigned then c.ult x else c.slt x
  | .LTEQ => if unsigned then x.ule c else x.sle c
  | _ => if unsigned then c.ule x else c.sle x

def orderOps : List Op := [.LT, .GT, .LTEQ, .GTEQ]

def isComparison (op : Op) : Bool := op ∈ compareOps ++ equalOps

/-- What the working register holds afterwards. -/
def DirectNode.Result {h : Host} (n : DirectNode h) (c c' : Cpu) : Prop :=
  let u := unsignedValue n.type
  match getSize n.type with
  | 1 =>
    if isComparison n.op then Truth c' (comparison n.op u c.b (n.value.setWidth 8)) else c'.b = arithmetic n.op u c.b n.value
  | 2 =>
    if isComparison n.op then Truth c' (comparison n.op u c.d (n.value.setWidth 16)) else c'.d = arithmetic n.op u c.d n.value
  | _ =>
    if isComparison n.op then Truth c' (comparison n.op u c.long (n.value.setWidth 32))
    else c'.long = arithmetic n.op u c.long n.value

/-- What is printed is accepted and leaves the result of C, from any state of which what is
remembered is right. -/
def DirectNode.Right {h : Host} (o : Options) (n : DirectNode h) : Prop :=
  ∀ f, genDirect o n = some f → ∀ t,
    (∀ l ∈ (f t).1, accepts l = true) ∧ ∀ c : Cpu, t.Sound c.toRegs → n.Result c (execLines (f t).1 c)

/-- The nodes of C: a count below the width, a divisor that is not zero, and a pointer with something
added to it or compared with a pointer or a zero. -/
def DirectNode.Typed {h : Host} (n : DirectNode h) : Prop :=
  match n.op with
  | .PLUS | .MINUS => IntType n.type ∨ PTR n.type ≠ 0
  | .AND | .OR | .HAT | .STAR => IntType n.type
  | .SLASH => IntType n.type ∧ n.value.setWidth (8 * getSize n.type) ≠ 0
  | .LTLT | .GTGT => IntType n.type ∧ n.value.toNat < 8 * getSize n.type
  | .EQEQ | .BANGEQ | .LT | .GT | .LTEQ | .GTEQ =>
    (IntType n.type ∧ n.rightType = n.type) ∨
      (PTR n.type ≠ 0 ∧ (PTR n.rightType ≠ 0 ∨ (IntType n.rightType ∧ n.value = 0)))
  | _ => False

/-- The nodes that come out right. -/
def DirectNode.Suits {h : Host} (n : DirectNode h) : Prop :=
  match n.op with
  | .OR => getSize n.type = 4 → byteAt n.value 2 = byteAt n.value 3
  | .LTLT => getSize n.type = 2 → n.value.toNat ≤ 8
  | .GTGT => getSize n.type = 1 → n.value = 0
  | .SLASH =>
    (n.value.setWidth h.intBits).toNat = 2 → getSize n.type ≠ 1 ∧ (getSize n.type = 2 → isUnsigned n.type)
  | .EQEQ | .BANGEQ => PTR n.type ≠ 0 → getSize n.rightType ≠ 1
  | .LT | .GTEQ => getSize n.rightType ≠ 4 → unsignedValue n.type → isUnsigned n.rightType
  | .GT | .LTEQ =>
    getSize n.rightType ≠ 4 → (unsignedValue n.type → isUnsigned n.rightType) ∧ (PTR n.type ≠ 0 → getSize n.rightType ≠ 1)
  | _ => True

end Fuzemsys.Fcc.Code6800
