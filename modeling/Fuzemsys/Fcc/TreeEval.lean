import Fuzemsys.Lib.Wrap
import Fuzemsys.Fcc.Tree

/-!
# What a tree computes

The arithmetic of the target, and the expressions that the first pass makes trees of.
An expression is built twice: with the real `tree`, and with one that folds nothing.
-/

open Fuzemsys.Lib

namespace Fuzemsys.Fcc.Tree

variable {h : Host}

/-! ## The arithmetic of the target -/

/-- A char has 8 bits, an int or a pointer 16, a long 32. -/
def format (t : CType) : Format :=
  if PTR t ≠ 0 then ⟨16, false⟩
  else if t < CSHORT then ⟨8, !isUnsigned t⟩
  else if t < CLONG then ⟨16, !isUnsigned t⟩
  else ⟨32, !isUnsigned t⟩

def reduce (t : CType) (x : Int) : Int := (format t).wrap x

def truth (p : Prop) [Decidable p] : Int := if p then 1 else 0

def bitwise (op : BitVec 32 → BitVec 32 → BitVec 32) (x y : Int) : Int := (op (BitVec.ofInt 32 x) (BitVec.ofInt 32 y)).toInt

/-- `none` is a division by zero or a shift out of range. -/
def arith (op : Op) (t : CType) (x y : Int) : Option Int :=
  match op with
  | .PLUS => some (x + y)
  | .MINUS => some (x - y)
  | .STAR => some (x * y)
  | .SLASH => if y = 0 then none else some (x.tdiv y)
  | .PERCENT => if y = 0 then none else some (x.tmod y)
  | .AND => some (bitwise (· &&& ·) x y)
  | .OR => some (bitwise (· ||| ·) x y)
  | .HAT => some (bitwise (· ^^^ ·) x y)
  | .LTLT => if 0 ≤ y ∧ y < (format t).width then some (x * 2 ^ y.toNat) else none
  | .GTGT => if 0 ≤ y ∧ y < (format t).width then some (x / 2 ^ y.toNat) else none
  | .LT => some (truth (x < y))
  | .LTEQ => some (truth (x ≤ y))
  | .GT => some (truth (y < x))
  | .GTEQ => some (truth (y ≤ x))
  | _ => none

def unary (op : Op) (x : Int) : Option Int :=
  match op with
  | .NEGATE => some (-x)
  | .TILDE => some (-x - 1)
  | .BANG => some (truth (x = 0))
  | .BOOL => some (truth (x ≠ 0))
  | .CAST => some x
  | _ => none

/-- The values of the variables, and the addresses of the labels. -/
structure Env (h : Host) where
  var : Node h → Int
  address : BitVec h.intBits → Nat
  address_pos : ∀ l, 0 < address l
  address_lt : ∀ l, address l < 2 ^ 16

def eval (env : Env h) : Node h → Option Int
  | .null => none
  | .node f l r =>
    match f.op with
    | .CONSTANT => some (reduce f.type f.value.toInt)
    | .LABEL => some (reduce f.type (env.address f.val2 + f.value.toInt))
    | .DEREF => some (reduce f.type (env.var r))
    | .ANDAND => do
      let x ← eval env l
      if x = 0 then some 0 else (eval env r).map fun y => truth (y ≠ 0)
    | .OROR => do
      let x ← eval env l
      if x ≠ 0 then some 1 else (eval env r).map fun y => truth (y ≠ 0)
    | op =>
      if l = .null then (do (unary op (← eval env r)).map (reduce f.type))
      else do (arith op f.type (← eval env l) (← eval env r)).map (reduce f.type)

/-! ## Expressions -/

inductive Expr (h : Host) where
  | constant (value : BitVec h.longBits) (type : CType)
  | variable (s : Symbol h) (voltrack : Bool)
  | label (label : BitVec h.intBits)
  | unary (op : Op) (x : Expr h)
  | bang (x : Expr h)
  | bool (x : Expr h) (flags : BitVec 16)
  | cast (x : Expr h) (t : CType)
  | binary (op : Op) (l r : Expr h)
  | compare (op : Op) (l r : Expr h)
  | logic (op : Op) (l r : Expr h)
  | ptrAdd (op : Op) (l r : Expr h)
  | addPtr (op : Op) (l r : Expr h)
  | ptrDiff (l r : Expr h)

/-- The calls that the first pass makes for an expression. -/
def Expr.build (mk : Op → Node h → Node h → Node h) : Expr h → Node h
  | constant value type => makeConstant value type
  | .variable s voltrack => makeRval mk (makeSymbol s) voltrack
  | label l => makeLabel l
  | unary op x => mk op .null (x.build mk)
  | bang x => bangTree mk (x.build mk)
  | bool x flags => boolTree mk (x.build mk) flags
  | cast x t => makeCast mk (x.build mk) t
  | binary op l r => intarithTree mk op (l.build mk) (r.build mk)
  | compare op l r => ordercompTree mk op (l.build mk) (r.build mk)
  | logic op l r => logicTree mk op (l.build mk) (r.build mk)
  | ptrAdd op l r => ptrAddTree mk op (l.build mk) (r.build mk)
  | addPtr op l r => addPtrTree mk op (l.build mk) (r.build mk)
  | ptrDiff l r => ptrDiffTree mk (l.build mk) (r.build mk)

/-- The tree that `constify` leaves. -/
def Expr.folded (e : Expr h) : Node h := e.build tree

def Expr.unfolded (e : Expr h) : Node h := e.build bareTree

/-! ## What is no type error -/

def IntType (t : CType) : Prop := t ∈ [CCHAR, UCHAR, CINT, UINT, CLONG, ULONG]

/-- The type of a label. -/
def PtrType (t : CType) : Prop := t = PTRTO ||| UCHAR

instance (t : CType) : Decidable (IntType t) := inferInstanceAs (Decidable (_ ∈ _))

instance (t : CType) : Decidable (PtrType t) := inferInstanceAs (Decidable (_ = _))

def binaryOps : List Op := [.PLUS, .MINUS, .STAR, .SLASH, .PERCENT, .AND, .OR, .HAT, .LTLT, .GTGT]

def compareOps : List Op := [.LT, .LTEQ, .GT, .GTEQ]

/-- Pointers are compared with pointers or a zero. -/
def Comparable (l r : Node h) : Prop :=
  (IntType l.type ∧ IntType r.type) ∨ (PtrType l.type ∧ PtrType r.type) ∨ (PtrType l.type ∧ isConstantZero r) ∨
    (isConstantZero l ∧ PtrType r.type)

instance (l r : Node h) : Decidable (Comparable l r) := inferInstanceAs (Decidable (_ ∨ _))

def Expr.Typed : Expr h → Prop
  | constant _ type => IntType type
  | .variable s _ => IntType s.type
  | label _ => True
  | unary op x => x.Typed ∧ (op = .NEGATE ∨ (op = .TILDE ∧ IntType x.unfolded.type))
  | bang x => x.Typed
  | bool x _ => x.Typed
  | cast x t => x.Typed ∧ IntType t
  | binary op l r => l.Typed ∧ r.Typed ∧ op ∈ binaryOps ∧ IntType l.unfolded.type ∧ IntType r.unfolded.type
  | compare op l r => l.Typed ∧ r.Typed ∧ op ∈ compareOps ∧ Comparable l.unfolded r.unfolded
  | logic op l r => l.Typed ∧ r.Typed ∧ (op = .ANDAND ∨ op = .OROR)
  | ptrAdd op l r => l.Typed ∧ r.Typed ∧ (op = .PLUS ∨ op = .MINUS) ∧ PtrType l.unfolded.type ∧ IntType r.unfolded.type
  | addPtr op l r => l.Typed ∧ r.Typed ∧ (op = .PLUS ∨ op = .MINUS) ∧ IntType l.unfolded.type ∧ PtrType r.unfolded.type
  | ptrDiff l r => l.Typed ∧ r.Typed ∧ PtrType l.unfolded.type ∧ PtrType r.unfolded.type

/-! ## Where folding is exact

A constant is kept as it was computed, in an unsigned long, and never trimmed to its type. What uses the
constant must not see the difference. -/

/-- The value that a constant stands for. -/
def Node.constValue (n : Node h) : Int := reduce n.type n.value.toInt

/-- The value that the compiler computes with. -/
def Node.hostValue (n : Node h) : Int := if isUnsigned n.type then n.value.toNat else n.value.toInt

def Node.Trimmed (n : Node h) : Prop := n.hostValue = n.constValue

/-- A label of which every address, with the offset, is a value of its type. -/
def Node.WholeAddress (n : Node h) : Prop :=
  ∀ a : Nat, 0 < a → a < 2 ^ 16 → reduce n.type (a + n.value.toInt) = a + n.value.toInt

/-- Its truth is that of the value it stands for. -/
def Node.TruthKept (n : Node h) : Prop := isConstant n → (n.value = 0 ↔ n.constValue = 0)

/-- As an int it is its truth. -/
def Node.IsTruth (n : Node h) : Prop := isConstant n → reduce CINT n.value.toInt = truth (n.constValue ≠ 0)

/-- As an int it has its truth. -/
def Node.IntTruth (n : Node h) : Prop := isConstant n → (reduce CINT n.value.toInt = 0 ↔ n.constValue = 0)

def Node.NoLabel (n : Node h) : Prop := n.op ≠ some .LABEL

def CastFits (n : Node h) (t : CType) : Prop :=
  (isConstant n → (format t).width ≤ (format n.type).width ∨ n.Trimmed) ∧
    (n.op = some .LABEL → (format t).width ≤ (format n.type).width ∨ n.WholeAddress)

def BoolFits (n : Node h) (flags : BitVec 16) : Prop :=
  n.op = some .BOOL ∨ flags &&& NEEDCC ≠ 0 ∨ (n.NoLabel ∧ n.IsTruth)

/-- Two constants under an operator. -/
def OpFits (op : Op) (l r : Node h) : Prop :=
  match op with
  | .SLASH => r.value = 1 ∨ (l.Trimmed ∧ r.Trimmed ∧ 0 ≤ l.constValue ∧ 0 ≤ r.constValue)
  | .PERCENT => l.Trimmed ∧ r.Trimmed ∧ 0 ≤ l.constValue ∧ 0 ≤ r.constValue
  | .LTLT => r.Trimmed
  | .GTGT => l.Trimmed ∧ r.Trimmed
  | .LT => l.Trimmed ∧ r.Trimmed
  | .LTEQ => l.Trimmed ∧ r.Trimmed
  | .GT => l.Trimmed ∧ r.Trimmed
  | .GTEQ => l.Trimmed ∧ r.Trimmed
  | _ => True

def BothFit (op : Op) (l r : Node h) : Prop := isConstant l → isConstant r → OpFits op l r

def ProFits (op : Op) (l r : Node h) : Prop :=
  let lt := arithPro l.type r.type
  CastFits l lt ∧ CastFits r lt ∧ BothFit op (makeCast tree l lt) (makeCast tree r lt)

def BinaryFits (op : Op) (l r : Node h) : Prop :=
  if op = .LTLT ∨ op = .GTGT then
    let lt := arithPro l.type l.type
    (lt ≠ r.type → CastFits l lt) ∧ (isConstant l → (format lt).width ≤ (format l.type).width ∨ l.Trimmed) ∧
      CastFits r CINT ∧ BothFit op (if lt ≠ r.type then makeCast tree l lt else l) (makeCast tree r CINT)
  else ProFits op l r

def CompareFits (op : Op) (l r : Node h) : Prop := if typePointermatch l r then BothFit op l r else ProFits op l r

/-- The left side alone decides. -/
def Decided (op : Op) (l : Node h) : Prop := isConstant l ∧ (op = .OROR ↔ l.value ≠ 0)

def LogicFits (op : Op) (l r : Node h) : Prop :=
  l.NoLabel ∧ l.TruthKept ∧
    (Decided op l ∨ (r.NoLabel ∧ (isConstant l → r.IsTruth) ∧ (¬ isConstant l → r.IntTruth)))

/-- Each step of the build fits, with the operands as they have been folded. -/
def Expr.Fits : Expr h → Prop
  | constant _ _ => True
  | .variable _ _ => True
  | label _ => True
  | unary _ x => x.Fits ∧ x.folded.NoLabel
  | bang x => x.Fits ∧ x.folded.NoLabel ∧ x.folded.TruthKept
  | bool x flags => x.Fits ∧ BoolFits x.folded flags
  | cast x t => x.Fits ∧ CastFits x.folded t
  | binary op l r => l.Fits ∧ r.Fits ∧ BinaryFits op l.folded r.folded
  | compare op l r => l.Fits ∧ r.Fits ∧ CompareFits op l.folded r.folded
  | logic op l r => l.Fits ∧ r.Fits ∧ LogicFits op l.folded r.folded
  | ptrAdd _ l r => l.Fits ∧ r.Fits ∧ CastFits r.folded UINT
  | addPtr _ l r => l.Fits ∧ r.Fits ∧ CastFits l.folded UINT
  | ptrDiff l r => l.Fits ∧ r.Fits

end Fuzemsys.Fcc.Tree
