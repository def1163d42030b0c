import Fuzemsys.Fcc.DirectIff

/-!
# Operators with the left side on the stack

`gen_push` and `gen_node` of the 6809 code generator, for the operators that take their left
operand from the stack, and casts.
-/

open Fuzemsys.Lib

namespace Fuzemsys.Fcc.Code6800

open Fuzemsys.Fcc.Tree

/-! ## The code generator -/

/-- What `gen_node` reads of a node. `type` is also the type of the left side. -/
structure StackNode where
  op : Op
  type : CType
  rightType : CType

/-- The halves of a long are pushed apart to get the order right. -/
def genPush (t : CType) : List Line :=
  match getSize t with
  | 1 => [⟨.pshs, .list .b⟩]
  | 2 => [⟨.pshs, .list .d⟩]
  | 4 => [⟨.pshs, .list .d⟩, ⟨.pshs, .list .y⟩]
  | _ => []

/-- The two byte forms of an operation. -/
structure ByteOp where
  onA : Mnemonic
  onB : Mnemonic

def makeTosPtr : Printer :=
  Printer.andThen (printf [⟨.tfr, .pair .s .x⟩]) (note fun t => { t with xFprel := true })

def op8OnTos (op : ByteOp) : Printer := Printer.andThen makeTosPtr (printf [⟨op.onB, .postInc .s⟩])

/-- The high byte is first on the stack, and is done first. -/
def op16OnSpi (op op2 : ByteOp) : List Line := [⟨op.onA, .postInc .s⟩, ⟨op2.onB, .postInc .s⟩]

def op16OnTos (op op2 : ByteOp) : Printer :=
  Printer.andThen (note Track.invalidateWork) (printf (op16OnSpi op op2))

/-- TODO: this seems to be buggy for 32bit -/
def writeTosOp (s : Nat) (op op2 : ByteOp) : Printer :=
  let code :=
    if s = 4 then
      Printer.andThen (swapDY .m6809).print (Printer.andThen (op16OnTos op2 op2)
        (Printer.andThen (swapDY .m6809).print (op16OnTos op op2)))
    else if s = 2 then op16OnTos op op2
    else op8OnTos op
  Printer.andThen code (note Track.invalidateWork)

/-- The flags of the comparison with the operand on the stack, and the routine. -/
def cmpOp (rightType : CType) (uop op : BoolRoutine) : Option Printer :=
  let s := getSize rightType
  let op := if isUnsigned rightType then uop else op
  if s > 2 then none
  else
    let code : List Line :=
      if s = 1 then [⟨.cmpb, .postInc .s⟩] else if s = 2 then [⟨.subd, .postInc2 .s⟩] else []
    some (Printer.andThen (printf (code ++ [⟨.lbsr, .routine op⟩])) (note Track.invalidateWork))

def genCast (lt rt : CType) : Option Printer :=
  let rt := if PTR rt ≠ 0 then USHORT else rt
  let lt := if PTR lt ≠ 0 then USHORT else lt
  if !IS_INTARITH lt || !IS_INTARITH rt then none
  else
    let ls := getSize lt
    let rs := getSize rt
    -- Size shrink is free
    if ls ≤ rs then some (printf [])
    else if !isUnsigned rt then
      if rs = 1 then some (printf [plain .sex]) else none
    else
      some (Printer.andThen (Printer.when (rs = 1) (loadAConst .m6809 0).print)
        (Printer.when (ls = 4) (printf [immediate .ldy 0])))

/-- No printer if the code is left to a helper. -/
def genNode (n : StackNode) : Option Printer :=
  let s := getSize n.type
  match n.op with
  | .CAST => genCast n.type n.rightType
  | .PLUS =>
    if s < 4 then some (writeTosOp s ⟨.adda, .addb⟩ ⟨.adca, .adcb⟩)
    else if n.type = FLOAT then none
    else some (printf [⟨.addd, .index 2 .s⟩, ⟨.adcb, .index 1 .s⟩, ⟨.adca, .index 0 .s⟩, ⟨.leas, .index 4 .s⟩])
  | .AND => some (writeTosOp s ⟨.anda, .andb⟩ ⟨.anda, .andb⟩)
  | .OR => some (writeTosOp s ⟨.ora, .orb⟩ ⟨.ora, .orb⟩)
  | .HAT => some (writeTosOp s ⟨.eora, .eorb⟩ ⟨.eora, .eorb⟩)
  -- These do the maths backwards in effect
  | .EQEQ => cmpOp n.rightType .booleq .booleq
  | .BANGEQ => cmpOp n.rightType .boolne .boolne
  | .LT => cmpOp n.rightType .boolugt .boolgt
  | .GT => cmpOp n.rightType .boolult .boollt
  | .LTEQ => cmpOp n.rightType .booluge .boolge
  | .GTEQ => cmpOp n.rightType .boolule .boolle
  | _ => none

/-! ## What C wants -/

/-- The working register, of any width. -/
def Cpu.working (c : Cpu) (w : Nat) : BitVec w := c.long.setWidth w

/-- Code that gives the stack and what was pushed on it back. -/
def Cpu.Kept (size : Nat) (c c' : Cpu) : Prop :=
  c'.s = c.s ∧ ∀ i < size, c'.mem (c.s + BitVec.ofNat 16 i) = c.mem (c.s + BitVec.ofNat 16 i)

/-- The left side is pushed, the right side is worked out, and the operator leaves the result of C and
the stack as it was. -/
def StackNode.Operates (n : StackNode) (f : Printer) : Prop :=
  let w := 8 * getSize n.type
  ∀ t (c c₁ : Cpu), Cpu.Kept (getSize n.type) (execLines (genPush n.type) c) c₁ →
    let c' := execLines (f t).1 c₁
    c'.s = c.s ∧
      if isComparison n.op then Truth c' (comparison n.op (isUnsigned n.type) (c.working w) (c₁.working w))
      else c'.working w = arithmetic n.op (isUnsigned n.type) (c.working w) (c₁.working w)

/-- The value is converted in the full width of the new type. -/
def StackNode.Converts (n : StackNode) (f : Printer) : Prop :=
  let w := 8 * getSize n.type
  let v := 8 * getSize n.rightType
  ∀ t (c : Cpu), t.Sound c.toRegs → (execLines (f t).1 c).working w =
    if isUnsigned n.rightType then (c.working v).setWidth w else (c.working v).signExtend w

def StackNode.Right (n : StackNode) : Prop :=
  ∀ f, genNode n = some f → if n.op = .CAST then n.Converts f else n.Operates f

def stackOps : List Op := [.PLUS, .AND, .OR, .HAT] ++ compareOps ++ equalOps

/-- Integers, and both sides of an operator of one type. -/
def StackNode.Typed (n : StackNode) : Prop :=
  IntType n.type ∧ IntType n.rightType ∧ (n.op = .CAST ∨ (n.op ∈ stackOps ∧ n.rightType = n.type))

/-- The nodes that come out right. -/
def StackNode.Suits (n : StackNode) : Prop :=
  match n.op with
  | .PLUS => getSize n.type = 1
  | .CAST => n.rightType = CCHAR → getSize n.type ≠ 4
  | _ => True

end Fuzemsys.Fcc.Code6800
