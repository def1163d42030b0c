import Fuzemsys.Fcc.Token

/-!
# Trees

The first pass folds constants while it builds the tree of an expression: `tree` makes
a node and gives it to `constify`, which may return another node in its place.
-/

namespace Fuzemsys.Fcc.Tree

variable {h : Host}

/-! ## Types -/

abbrev CType := BitVec 16

def UNSIGNED : CType := 0x08
def CCHAR : CType := 0x00
def UCHAR : CType := 0x08
def CSHORT : CType := 0x10
def USHORT : CType := 0x18
def CINT : CType := CSHORT
def UINT : CType := USHORT
def CLONG : CType := 0x20
def ULONG : CType := 0x28
def FLOAT : CType := 0x80
def DOUBLE : CType := 0x90
def VOID : CType := 0xA0
def PTRTO : CType := 1

/-- How many times a pointer. -/
def PTR (t : CType) : CType := t &&& 7

def isUnsigned (t : CType) : Bool := t &&& UNSIGNED ≠ 0

def IS_ARITH (t : CType) : Bool := PTR t = 0 && t < VOID

def IS_INTARITH (t : CType) : Bool := PTR t = 0 && t < FLOAT

def IS_INTORPTR (t : CType) : Bool := t < FLOAT || PTR t ≠ 0

/-! ## Nodes -/

inductive Op where
  | PLUS
  | MINUS
  | STAR
  | SLASH
  | PERCENT
  | AND
  | OR
  | HAT
  | LTLT
  | GTGT
  | LT
  | LTEQ
  | GT
  | GTEQ
  | EQEQ
  | BANGEQ
  | ANDAND
  | OROR
  | QUESTION
  | COLON
  | PLUSEQ
  | MINUSEQ
  | STAREQ
  | SLASHEQ
  | PERCENTEQ
  | SHLEQ
  | SHREQ
  | ANDEQ
  | HATEQ
  | OREQ
  | PLUSPLUS
  | MINUSMINUS
  | NEGATE
  | TILDE
  | BANG
  | BOOL
  | CAST
  | CONSTANT
  | NAME
  | LOCAL
  | LABEL
  | ARGUMENT
  | REG
  | DEREF
  deriving DecidableEq, Repr

def LVAL : BitVec 16 := 1
def SIDEEFFECT : BitVec 16 := 2
def NEEDCC : BitVec 16 := 64

/-- A node without its subtrees. -/
structure Fields (h : Host) where
  op : Op
  type : CType
  flags : BitVec 16
  value : BitVec h.longBits
  snum : BitVec h.intBits
  val2 : BitVec h.intBits
  deriving DecidableEq

/-- A pointer to a node. -/
inductive Node (h : Host) where
  | null
  | node (f : Fields h) (left right : Node h)
  deriving DecidableEq

namespace Node

def op : Node h → Option Op
  | null => none
  | node f _ _ => some f.op

def type : Node h → CType
  | null => 0
  | node f _ _ => f.type

def value : Node h → BitVec h.longBits
  | null => 0
  | node f _ _ => f.value

def flags : Node h → BitVec 16
  | null => 0
  | node f _ _ => f.flags

def setType (t : CType) : Node h → Node h
  | null => null
  | node f l r => node { f with type := t } l r

def setValue (v : BitVec h.longBits) : Node h → Node h
  | null => null
  | node f l r => node { f with value := v } l r

def size : Node h → Nat
  | null => 0
  | node _ l r => l.size + r.size + 1

end Node

def newNode (op : Op) : Fields h := ⟨op, 0, 0, 0, 0, 0⟩

def makeConstant (value : BitVec h.longBits) (type : CType) : Node h :=
  .node { newNode .CONSTANT with value := value, type := type } .null .null

/-- Where a symbol lives. -/
inductive Storage where
  | LSTATIC
  | AUTO
  | ARGUMENT
  | REGISTER
  | STATIC
  deriving DecidableEq, Repr

structure Symbol (h : Host) where
  storage : Storage
  name : BitVec h.intBits
  type : CType
  offset : BitVec h.intBits
  deriving DecidableEq

def makeSymbol (s : Symbol h) : Node h :=
  let f : Fields h := { newNode .NAME with snum := s.name, flags := LVAL, type := s.type }
  match s.storage with
  | .LSTATIC => .node { f with op := .LABEL, val2 := s.offset } .null .null
  | .AUTO => .node { f with op := .LOCAL, value := s.offset.setWidth h.longBits } .null .null
  | .ARGUMENT => .node { f with op := .ARGUMENT, value := s.offset.setWidth h.longBits } .null .null
  | .REGISTER => .node { f with op := .REG, value := s.offset.setWidth h.longBits } .null .null
  | .STATIC => .node f .null .null

def makeLabel (label : BitVec h.intBits) : Node h :=
  .node { newNode .LABEL with val2 := label, type := PTRTO ||| UCHAR } .null .null

def isConstant (n : Node h) : Bool := n.op = some .CONSTANT

def isConstname (n : Node h) : Bool :=
  (n.op = some .NAME && n.flags &&& LVAL ≠ 0) || n.op = some .LABEL || isConstant n

def isName (n : Node h) : Bool :=
  n.op = some .NAME || n.op = some .LOCAL || n.op = some .LABEL || n.op = some .ARGUMENT

def treeImpure : Node h → Bool
  | .null => false
  | .node f l r => treeImpure r || treeImpure l || f.flags &&& SIDEEFFECT ≠ 0

/-! ## Constants -/

def trimConstant (t : CType) (value : BitVec h.longBits) : BitVec h.longBits :=
  let negative := !isUnsigned t && value.toInt < 0
  let magnitude := if negative then -value else value
  let trimmed :=
    if t &&& 0xF0 = UCHAR then magnitude &&& 0xFF
    else if t &&& 0xF0 = USHORT then magnitude &&& 0xFFFF
    else if t &&& 0xF0 = ULONG then magnitude &&& 0xFFFFFFFF
    else magnitude
  if negative then trimmed * -1 else trimmed

/-- The cases have the unsigned bit, that the mask takes away. -/
theorem trimConstant_eq (t : CType) (value : BitVec h.longBits) : trimConstant t value = value := by
  have hcase (c : CType) (hc : c &&& 0x08 ≠ 0) : t &&& 0xF0 ≠ c := by
    rintro rfl
    rw [BitVec.and_assoc, show (0xF0 &&& 0x08 : CType) = 0 by decide] at hc
    simp at hc
  simp only [trimConstant, if_neg (hcase UCHAR (by decide)), if_neg (hcase USHORT (by decide)),
    if_neg (hcase ULONG (by decide))]
  split <;> simp

def replaceConstant (t : CType) (value : BitVec h.longBits) : Node h := makeConstant (trimConstant t value) t

@[simp]
theorem replaceConstant_eq (t : CType) (value : BitVec h.longBits) : replaceConstant t value = makeConstant value t := by
  rw [replaceConstant, trimConstant_eq]

/-! ## constify -/

inductive Result (h : Host) where
  /-- It is NULL. The node may have changed all the same. -/
  | stuck (n : Node h)
  | folded (n : Node h)

def Result.node : Result h → Node h
  | stuck n => n
  | folded n => n

/-- A node that inherits its type from the left if present, from the right if not. -/
def treeNode (op : Op) (l r : Node h) : Node h :=
  .node { newNode op with type := if l ≠ .null then l.type else r.type } l r

/-- `tree` with any `constify`. -/
def treeWith (fold : Node h → Result h) (op : Op) (l r : Node h) : Node h := (fold (treeNode op l r)).node

/-- `mk` is `tree`. -/
def boolTree (mk : Op → Node h → Node h → Node h) (n : Node h) (flags : BitVec 16) : Node h :=
  if n.op = some .BOOL then n
  else if flags &&& NEEDCC ≠ 0 then .node { newNode .BOOL with type := CINT, flags := flags } .null n
  else (mk .BOOL .null n).setType CINT

/-- Casting of constant form objects: names and labels are relabelled. -/
def castRule (f : Fields h) (r : Node h) : Option (Node h) :=
  if f.op = .CAST then
    if r.op = some .CONSTANT then some (replaceConstant f.type r.value)
    else if r.op = some .NAME ∨ r.op = some .LABEL then some (r.setType f.type)
    else none
  else none

/-- The constants of x + c + d are added. -/
def reassociate (f : Fields h) (l r : Node h) : Node h × Node h :=
  match l with
  | .node fl ll lr =>
    if f.op = .PLUS ∧ fl.op = .PLUS ∧ isConstant lr ∧ isConstant r ∧ IS_INTORPTR r.type ∧ IS_INTORPTR lr.type then
      (ll, r.setValue (r.value + lr.value))
    else (l, r)
  | .null => (l, r)

/-- Multiply by 1 or 0, divide by 1, and compares that are always true or false. -/
def simplify (fold : Node h → Result h) (f : Fields h) (l r : Node h) : Option (Node h) :=
  if f.op = .STAR ∧ isConstant r ∧ IS_INTORPTR r.type ∧ r.value = 1 then some l
  else if f.op = .STAR ∧ isConstant r ∧ IS_INTORPTR r.type ∧ r.value = 0 ∧ !treeImpure l then
    some (makeConstant 0 f.type)
  else if f.op = .SLASH ∧ isConstant r ∧ IS_INTORPTR r.type ∧ r.value = 1 then some l
  else if isConstant r ∧ r.value = 0 ∧ isUnsigned f.type ∧ f.op = .LT ∧ !treeImpure l then
    some (boolTree (treeWith fold) (makeConstant 0 CINT) 0)
  else if isConstant r ∧ r.value = 0 ∧ isUnsigned f.type ∧ f.op = .GTEQ ∧ !treeImpure l then
    some (boolTree (treeWith fold) (makeConstant 1 CINT) 0)
  else none

def truthValue (b : Bool) : BitVec h.longBits := if b then 1 else 0

/-- The value of an operator. For a signed type the left side of / and % is cast to a signed long, but
the right side is unsigned, so the division is. -/
def binaryValue (op : Op) (lt : CType) (v w : BitVec h.longBits) : Option (BitVec h.longBits) :=
  match op with
  | .PLUS => some (v + w)
  | .MINUS => some (v - w)
  | .STAR => some (v * w)
  | .SLASH => if w = 0 then none else some (v / w)
  | .PERCENT => if w = 0 then none else some (v % w)
  | .AND => some (v &&& w)
  | .OR => some (v ||| w)
  | .HAT => some (v ^^^ w)
  | .LTLT => some (v <<< w)
  | .GTGT => some (if isUnsigned lt then v >>> w else v.sshiftRight' w)
  | .LT => some (truthValue (if isUnsigned lt then v.ult w else v.slt w))
  | .LTEQ => some (truthValue (if isUnsigned lt then v.ule w else v.sle w))
  | .GT => some (truthValue (if isUnsigned lt then w.ult v else w.slt v))
  | .GTEQ => some (truthValue (if isUnsigned lt then w.ule v else w.sle v))
  | _ => none

/-- The uni-ops. A binary operator comes here too if its right side is a name or a label. -/
def unaryRule (f : Fields h) (l r : Node h) : Result h :=
  if r.flags &&& LVAL ≠ 0 then .stuck (.node f l r)
  else if isConstant r ∧ (r.type = FLOAT ∨ r.type = DOUBLE) then .folded (r.setValue (r.value ^^^ 0x80000000))
  else if !IS_INTORPTR r.type then .stuck (.node f l r)
  else
    match f.op with
    | .NEGATE => .folded (replaceConstant r.type (-r.value))
    | .TILDE => .folded (replaceConstant r.type (~~~r.value))
    | .BANG => .folded (replaceConstant r.type (truthValue (r.value = 0)))
    | .BOOL => if f.flags &&& NEEDCC ≠ 0 then .stuck (.node f l r) else .folded (replaceConstant f.type r.value)
    | .CAST => .folded (replaceConstant f.type r.value)
    | _ => .stuck (.node f l r)

def binaryRule (fold : Node h → Result h) (f : Fields h) (l r : Node h) : Result h :=
  if isConstant r ∧ (isName l ∨ isName r) then
    if f.op ≠ .PLUS ∧ f.op ≠ .MINUS then .stuck (.node f l r)
    else if isName l then
      if isName r then .stuck (.node f l r)
      else if f.op = .PLUS then .folded (l.setValue (l.value + r.value))
      else .folded (l.setValue (l.value - r.value))
    else .folded (r.setValue (r.value + l.value))
  else if (f.op = .PLUS ∨ f.op = .MINUS) ∧ isConstant r ∧ r.value = 0 then .folded l
  else
    match fold l with
    | .stuck l' => .stuck (.node f l' r)
    | .folded l' =>
      if !IS_INTORPTR l.type ∨ l'.flags &&& LVAL ≠ 0 then .stuck (.node f l' r)
      else if isConstant r then
        match binaryValue f.op l'.type l.value r.value with
        | some value => .folded (replaceConstant l.type value)
        | none => .stuck (.node f l' r)
      else unaryRule f l' r

/-- The logic ops are dealt with from left to right. -/
def logicRule (fold : Node h → Result h) (f : Fields h) (l r : Node h) : Result h :=
  match fold l with
  | .stuck l' => .stuck (.node f l' r)
  | .folded l' =>
    if !IS_INTARITH l'.type ∨ l'.flags &&& LVAL ≠ 0 then .stuck (.node f l r)
    else if f.op = .OROR then
      if l'.value ≠ 0 then .folded (boolTree (treeWith fold) (makeConstant 1 CINT) 0)
      else .folded (boolTree (treeWith fold) r 0)
    else if l'.value = 0 then .folded (boolTree (treeWith fold) (makeConstant 0 CINT) 0)
    else .folded (boolTree (treeWith fold) r 0)

/-- `fold` is for the trees below. -/
def constifyNode (fold : Node h → Result h) (f : Fields h) (l r : Node h) : Result h :=
  match castRule f r with
  | some c => .folded c
  | none =>
    let (l, r) := reassociate f l r
    match simplify fold f l r with
    | some c => .folded c
    | none =>
      if f.op = .ANDAND ∨ f.op = .OROR then logicRule fold f l r
      else
        match r with
        | .null => if isConstname (.node f l r) then .folded (.node f l r) else .stuck (.node f l r)
        | r =>
          match fold r with
          | .stuck r' => .stuck (.node f l r')
          | .folded r' => if l = .null then unaryRule f l r' else binaryRule fold f l r'

/-- It goes down at most `depth` levels. -/
def constify : Nat → Node h → Result h
  | 0, n => .stuck n
  | _ + 1, .null => .stuck .null
  | depth + 1, .node f l r => constifyNode (constify depth) f l r

/-- No node has more levels below it than it has nodes. -/
def tree (op : Op) (l r : Node h) : Node h := treeWith (constify (treeNode op l r).size) op l r

/-- `tree` without `constify`. -/
def bareTree (op : Op) (l r : Node h) : Node h := treeNode op l r

/-! ## Trees with type rule -/

section
variable (mk : Op → Node h → Node h → Node h)

def makeCast (n : Node h) (t : CType) : Node h := if n.type ≠ t then (mk .CAST .null n).setType t else n

/-- Arithmetic promotion. -/
def arithPro (lt rt : CType) : CType :=
  let lt := if PTR lt ≠ 0 then UINT else lt
  let rt := if PTR rt ≠ 0 then UINT else rt
  let lt := if lt < rt then rt else lt
  let lt := if lt < CINT then CINT else lt
  if lt < FLOAT ∧ isUnsigned (rt ||| lt) then lt ||| UNSIGNED else lt

def arithProTree (op : Op) (l r : Node h) : Node h :=
  let lt := arithPro l.type r.type
  (mk op (makeCast mk l lt) (makeCast mk r lt)).setType lt

def isConstantZero (n : Node h) : Bool := isConstant n && n.value = 0

/-- Do two simple types match for conversion purposes? -/
def typePointermatch (l r : Node h) : Bool :=
  if isConstantZero l ∧ PTR r.type ≠ 0 then true
  else if isConstantZero r ∧ PTR l.type ≠ 0 then true
  else if PTR l.type = 0 ∨ PTR r.type = 0 then false
  else if l.type = r.type then true
  else if l.type &&& ~~~7 = VOID ∨ r.type &&& ~~~7 = VOID then true
  else l.type &&& ~~~7 < FLOAT && l.type ^^^ r.type = UNSIGNED

/-- Shifts compare the promoted type with that of the right side. -/
def intarithTree (op : Op) (l r : Node h) : Node h :=
  if op = .LTLT ∨ op = .GTGT then
    let lt := arithPro l.type l.type
    let l := if lt ≠ r.type then makeCast mk l lt else l
    (mk op l (makeCast mk r CINT)).setType lt
  else arithProTree mk op l r

def ordercompTree (op : Op) (l r : Node h) : Node h :=
  let n := if typePointermatch l r then mk op l r else arithProTree mk op l r
  boolTree mk n 0

def logicTree (op : Op) (l r : Node h) : Node h := (mk op (boolTree mk l 0) (boolTree mk r 0)).setType CINT

/-! ## Sums with a char pointer, from hier8 -/

/-- The size of what it points to. -/
def scale (n : Node h) : Node h := mk .STAR (makeCast mk n UINT) (makeConstant 1 UINT)

def ptrAddTree (op : Op) (l r : Node h) : Node h := (mk op l (scale mk r)).setType l.type

def addPtrTree (op : Op) (l r : Node h) : Node h := (mk op (scale mk l) r).setType r.type

def ptrDiffTree (l r : Node h) : Node h := (mk .SLASH (mk .MINUS l r) (makeConstant 1 UINT)).setType CINT

/-! ## Expressions without an operator of two sides -/

def sfTree (op : Op) (l r : Node h) (voltrack : Bool) : Node h :=
  match mk op l r with
  | .null => .null
  | .node f l r => .node (if op ≠ .DEREF ∨ voltrack then { f with flags := f.flags ||| SIDEEFFECT } else f) l r

/-- The value of a variable. -/
def makeRval (n : Node h) (voltrack : Bool) : Node h :=
  if n.flags &&& LVAL ≠ 0 then sfTree mk .DEREF .null n voltrack else n

def bangTree (r : Node h) : Node h := boolTree mk (mk .BANG .null r) 0

end

end Fuzemsys.Fcc.Tree
