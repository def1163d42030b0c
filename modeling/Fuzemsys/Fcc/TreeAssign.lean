import Fuzemsys.Fcc.TreeTypes

/-!
# Operators that convert in their own way

Unary minus and complement, the assignment operators, ++ and --, comparisons and ?: have
no common type rule in the first pass. Their operands are trees that are not looked into.
-/

open Fuzemsys.Lib

namespace Fuzemsys.Fcc.Tree

variable {h : Host} {fold : Node h → Result h} {f : Fields h} {n l r : Node h} {op : Op} {t lt rt : CType}

/-! ## The trees of hier10, hier1a and hier1 -/

def assignOps : List Op :=
  [.PLUSEQ, .MINUSEQ, .STAREQ, .SLASHEQ, .PERCENTEQ, .ANDEQ, .OREQ, .HATEQ, .SHLEQ, .SHREQ]

def equalOps : List Op := [.EQEQ, .BANGEQ]

section
variable (mk : Op → Node h → Node h → Node h)

/-- The right side is cast to the type of the left before the operation. Numbers have a scale of 1. -/
def assignOpTree (fc : Op) (l r : Node h) : Node h :=
  sfTree mk fc l (mk .STAR (makeCast mk r l.type) (makeConstant 1 UINT)) false

/-- `++x` is `x += 1`. -/
def prefixTree (up : Bool) (r : Node h) : Node h :=
  sfTree mk (if up then .PLUSEQ else .MINUSEQ) r (makeConstant 1 r.type) false

def postfixTree (up : Bool) (l : Node h) : Node h :=
  sfTree mk (if up then .PLUSPLUS else .MINUSMINUS) l (makeConstant 1 l.type) false

/-- Takes the type of the first argument of the colon. -/
def questionTree (l a1 a2 : Node h) : Node h :=
  (mk .QUESTION (boolTree mk l NEEDCC) (mk .COLON a1 (makeCast mk a2 a1.type))).setType a1.type

end

/-! ## Operands -/

/-- `constify` finds nothing in it. -/
def Inert (n : Node h) : Prop := ∀ k, n.size ≤ k → constify k n = .stuck n

/-- An integer known only when the program runs. -/
structure Rval (h : Host) where
  node : Node h
  int : IntType node.type
  operator : ∃ op, node.op = some op ∧ op.isOperator = true
  bool : node.op = some .BOOL → node.type = CINT
  inert : Inert node

/-- An integer variable, wherever it is. -/
structure Lval (h : Host) where
  node : Node h
  int : IntType node.type
  lval : node.flags &&& LVAL ≠ 0
  kept : ∀ k, node.size ≤ k → (constify k node).node = node

inductive Construct (h : Host) where
  | negate (x : Rval h)
  | tilde (x : Rval h)
  | assignOp (fc : { op : Op // op ∈ assignOps }) (l : Lval h) (r : Rval h)
  | prefixed (up : Bool) (l : Lval h)
  | postfixed (up : Bool) (l : Lval h)
  | compare (op : { op : Op // op ∈ compareOps ++ equalOps }) (l r : Rval h)
  | question (c a1 a2 : Rval h)

/-- The tree that the first pass builds. -/
def Construct.node : Construct h → Node h
  | negate x => tree .NEGATE .null x.node
  | tilde x => tree .TILDE .null x.node
  | assignOp fc l r => assignOpTree tree fc l.node r.node
  | prefixed up l => prefixTree tree up l.node
  | postfixed up l => postfixTree tree up l.node
  | compare op l r => ordercompTree tree op l.node r.node
  | question c a1 a2 => questionTree tree c.node a1.node a2.node

/-! ## What a tree does -/

/-- Memory, and whatever else the operands do. `place` is the address of an lvalue. -/
structure World (h : Host) where
  State : Type
  place : Node h → State → Option (Int × State)
  load : CType → Int → State → Int
  store : CType → Int → Int → State → State
  other : Node h → State → Option (Int × State)

/-- The operator of an assignment operator. -/
def Op.plain : Op → Op
  | PLUSEQ => PLUS
  | MINUSEQ => MINUS
  | STAREQ => STAR
  | SLASHEQ => SLASH
  | PERCENTEQ => PERCENT
  | ANDEQ => AND
  | OREQ => OR
  | HATEQ => HAT
  | SHLEQ => LTLT
  | SHREQ => GTGT
  | PLUSPLUS => PLUS
  | MINUSMINUS => MINUS
  | op => op

def compared (op : Op) (x y : Int) : Int :=
  match op with
  | .LT => truth (x < y)
  | .LTEQ => truth (x ≤ y)
  | .GT => truth (y < x)
  | .GTEQ => truth (y ≤ x)
  | .EQEQ => truth (x = y)
  | _ => truth (x ≠ y)

namespace World

variable (w : World h)

/-- What a variable of this type holds. -/
def held (t : CType) (a : Int) (s : w.State) : Int := reduce t (w.load t a s)

/-- Change a variable. Gives what it held and what it holds. -/
def update (t : CType) (l : Node h) (right : w.State → Option (Int × w.State)) (change : Int → Int → Option Int)
    (s : w.State) : Option ((Int × Int) × w.State) := do
  let (a, s) ← w.place l s
  let (y, s) ← right s
  let x := w.held t a s
  let z ← change x y
  some ((x, reduce t z), w.store t a (reduce t z) s)

/-- A node computes in its own type. -/
def value : Node h → w.State → Option (Int × w.State)
  | .null, _ => none
  | .node f l r, s =>
    if f.op = .DEREF then do
      let (a, s) ← w.place r s
      some (w.held f.type a s, s)
    else if f.op ∈ unaryOps then do
      let (x, s) ← value r s
      let z ← unary f.op x
      some (reduce f.type z, s)
    else if f.op ∈ compareOps ++ equalOps then do
      let (x, s) ← value l s
      let (y, s) ← value r s
      some (compared f.op x y, s)
    else if f.op ∈ assignOps then do
      let (z, s) ← w.update f.type l (value r) (arith f.op.plain f.type) s
      some (z.2, s)
    else if f.op = .PLUSPLUS ∨ f.op = .MINUSMINUS then do
      let (z, s) ← w.update f.type l (value r) (arith f.op.plain f.type) s
      some (z.1, s)
    else if f.op = .QUESTION then
      match r with
      | .null => none
      | .node _ a1 a2 => do
        let (c, s) ← value l s
        let (x, s) ← (if c ≠ 0 then value a1 s else value a2 s)
        some (reduce f.type x, s)
    else if f.op = .CONSTANT then some (reduce f.type f.value.toInt, s)
    else do
      let (x, s) ← w.other (.node f l r) s
      some (reduce f.type x, s)

end World

/-! ## What C makes of it -/

/-- The operation in the common type. The count of a shift is only promoted. -/
def cArith (op : Op) (lt rt : CType) (x y : Int) : Option Int :=
  if isShift op then (arith op (promote lt) x y).map (reduce (promote lt))
  else (arith op (usual lt rt) (reduce (usual lt rt) x) (reduce (usual lt rt) y)).map (reduce (usual lt rt))

def Construct.cType : Construct h → CType
  | negate x => promote x.node.type
  | tilde x => promote x.node.type
  | assignOp _ l _ => l.node.type
  | prefixed _ l => l.node.type
  | postfixed _ l => l.node.type
  | compare _ _ _ => CINT
  | question _ a1 a2 => usual a1.node.type a2.node.type

/-- `E1 op= E2` is `E1 = E1 op E2` with E1 evaluated once. -/
def Construct.cValue (w : World h) : Construct h → w.State → Option (Int × w.State)
  | negate x, s => do
    let (x', s) ← w.value x.node s
    some (reduce (promote x.node.type) (-x'), s)
  | tilde x, s => do
    let (x', s) ← w.value x.node s
    some (reduce (promote x.node.type) (-x' - 1), s)
  | assignOp fc l r, s => do
    let (z, s) ← w.update l.node.type l.node (w.value r.node) (cArith fc.1.plain l.node.type r.node.type) s
    some (z.2, s)
  | prefixed up l, s => do
    let (z, s) ← w.update l.node.type l.node (fun s => some (1, s)) (cArith (if up then .PLUS else .MINUS) l.node.type CINT) s
    some (z.2, s)
  | postfixed up l, s => do
    let (z, s) ← w.update l.node.type l.node (fun s => some (1, s)) (cArith (if up then .PLUS else .MINUS) l.node.type CINT) s
    some (z.1, s)
  | compare op l r, s => do
    let t := usual l.node.type r.node.type
    let (x, s) ← w.value l.node s
    let (y, s) ← w.value r.node s
    some (compared op (reduce t x) (reduce t y), s)
  | question c a1 a2, s => do
    let t := usual a1.node.type a2.node.type
    let (c, s) ← w.value c.node s
    let (x, s) ← (if c ≠ 0 then w.value a1.node s else w.value a2.node s)
    some (reduce t x, s)

/-- The tree has the type that C gives, and does what C says wherever C says something. -/
def Construct.EvaluatesAsC (e : Construct h) : Prop :=
  e.node.type = e.cType ∧ ∀ (w : World h) (s : w.State) out, e.cValue w s = some out → w.value e.node s = some out

end Fuzemsys.Fcc.Tree
