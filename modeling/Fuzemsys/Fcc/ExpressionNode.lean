import Fuzemsys.Fcc.Tree

/-!
# What expressions are made of

Tokens, and the trees that expression.c makes of them before anything is folded. A routine that
reports an error has no result.
-/

namespace Fuzemsys.Fcc.Expression

open Tree (CType Storage UNSIGNED CCHAR UCHAR CINT UINT FLOAT DOUBLE VOID PTRTO PTR IS_ARITH IS_INTARITH isUnsigned)

/-! ## Codes -/

/-- The T_ codes of tokens and of nodes. -/
inductive Op where
  | LPAREN
  | RPAREN
  | LSQUARE
  | RSQUARE
  | DOT
  | POINTSTO
  | SIZEOF
  | SEMICOLON
  | PLUS
  | MINUS
  | STAR
  | SLASH
  | PERCENT
  | AND
  | OR
  | HAT
  | LTLT
  | GTGT
  | LT
  | LTEQ
  | GT
  | GTEQ
  | EQEQ
  | BANGEQ
  | ANDAND
  | OROR
  | QUESTION
  | COLON
  | EQ
  | PLUSEQ
  | MINUSEQ
  | STAREQ
  | SLASHEQ
  | PERCENTEQ
  | SHLEQ
  | SHREQ
  | ANDEQ
  | HATEQ
  | OREQ
  | PLUSPLUS
  | MINUSMINUS
  | TILDE
  | BANG
  | COMMA
  | NEGATE
  | BOOL
  | CAST
  | CONSTANT
  | NAME
  | LOCAL
  | LABEL
  | ARGUMENT
  | REG
  | DEREF
  | ADDROF
  | FUNCCALL
  | ARGCOMMA
  | CLEANUP
  deriving DecidableEq, Repr

inductive Tok where
  | op (o : Op)
  | name (n : Nat)
  /-- T_INTVAL and its like. -/
  | value (t : CType) (v : Nat)
  /-- A word of a type, or the name of one. -/
  | typeWord (n : Nat)
  | modifier (n : Nat)
  deriving DecidableEq, Repr

/-! ## Nodes -/

structure Fields where
  op : Op
  type : CType
  value : Int
  val2 : Int
  snum : Nat
  lval : Bool
  sideEffect : Bool
  noReturn : Bool
  needCC : Bool
  deriving DecidableEq, Repr

inductive Node where
  | null
  | node (f : Fields) (left right : Node)
  deriving DecidableEq, Repr

namespace Node

def type : Node → CType
  | null => 0
  | node f _ _ => f.type

def lval : Node → Bool
  | null => false
  | node f _ _ => f.lval

def op : Node → Option Op
  | null => none
  | node f _ _ => some f.op

def modify (g : Fields → Fields) : Node → Node
  | null => null
  | node f l r => node (g f) l r

def setType (n : Node) (t : CType) : Node := n.modify fun f => { f with type := t }

def setLval (n : Node) (b : Bool) : Node := n.modify fun f => { f with lval := b }

end Node

def newNode (op : Op) : Fields := ⟨op, 0, 0, 0, 0, false, false, false, false⟩

def makeConstant (value : Int) (type : CType) : Node :=
  .node { newNode .CONSTANT with value := value, type := type } .null .null

/-- What a name is found to be. -/
inductive Symbol where
  | object (storage : Storage) (type : CType) (offset : Int)
  | enumerator (p : Nat)

def makeSymbol (name : Nat) (storage : Storage) (type : CType) (offset : Int) : Node :=
  let f := { newNode .NAME with snum := name, lval := true, type := type }
  match storage with
  | .LSTATIC => .node { f with op := .LABEL, val2 := offset } .null .null
  | .AUTO => .node { f with op := .LOCAL, value := offset } .null .null
  | .ARGUMENT => .node { f with op := .ARGUMENT, value := offset } .null .null
  | .REGISTER => .node { f with op := .REG, value := offset } .null .null
  | .STATIC => .node f .null .null

def nameNode (name : Nat) : Symbol → Node
  | .object storage type offset => makeSymbol name storage type offset
  | .enumerator p => makeConstant p CINT

/-- Inherit from left if present, right if not -/
def tree (op : Op) (l r : Node) : Node :=
  .node { newNode op with type := if l ≠ .null then l.type else r.type } l r

def isConstantZero : Node → Bool
  | .null => false
  | .node f _ _ => f.op = .CONSTANT && f.value = 0

/-! ## Types -/

def C_STRUCT : CType := 0x4000
def C_FUNCTION : CType := 0x8000
def C_ARRAY : CType := 0xC000
def ELLIPSIS : CType := 0xB0

def CLASS (t : CType) : CType := t &&& 0xC000

def IS_SIMPLE (t : CType) : Bool := CLASS t = 0

def IS_STRUCT (t : CType) : Bool := CLASS t = C_STRUCT

def IS_FUNCTION (t : CType) : Bool := CLASS t = C_FUNCTION

def IS_ARRAY (t : CType) : Bool := CLASS t = C_ARRAY

/-- What the symbol table and the target say, and how a type name is read. -/
structure Types where
  /-- A call has declared a function that nothing else does. -/
  symbol : Nat → Option Symbol
  /-- `get_type` and `type_name_parse` -/
  typeName : List Tok → Option (CType × List Tok)
  canonical : CType → CType
  deref : CType → Option CType
  addrof : CType → Option CType
  ptr : CType → Option CType
  sizeof : CType → Option Nat
  ptrscale : CType → Option Nat
  numDimensions : CType → CType
  findMember : CType → Nat → Option (CType × Nat)
  funcReturn : CType → CType
  funcArgs : CType → List CType
  argsize : CType → Nat
  ptrArith : CType → CType
  voltrack : Bool

variable (T : Types)

def typeScale (t : CType) : Option Nat :=
  if PTR t ≠ 0 then T.ptrscale t else if !IS_SIMPLE t && !IS_ARRAY t then none else some 1

/-! ## Trees -/

/-- A dereference is only a side effect if it might be volatile -/
def sfTree (op : Op) (l r : Node) : Node :=
  (tree op l r).modify fun f => { f with sideEffect := if op = .DEREF then T.voltrack else true }

def makeRval (n : Node) : Node :=
  if n.lval then
    if IS_ARRAY n.type then
      if PTR n.type = T.numDimensions n.type then n.setLval false else n
    else if IS_FUNCTION n.type ∧ PTR n.type = 0 then n.setLval false
    else sfTree T .DEREF .null n
  else n

def makeCast (n : Node) (t : CType) : Node :=
  let n := n.setType (T.canonical n.type)
  if n.type ≠ t then (tree .CAST .null n).setType t else n

def boolTree (n : Node) (needCC : Bool) : Node :=
  if n.op = some .BOOL then n
  else if needCC then .node { newNode .BOOL with type := CINT, needCC := true } .null n
  else (tree .BOOL .null n).setType CINT

def arithProTree (op : Op) (l r : Node) : Node :=
  let lt := Tree.arithPro (T.canonical l.type) (T.canonical r.type)
  let l := if l.type ≠ lt then makeCast T l lt else l
  let r := if r.type ≠ lt then makeCast T r lt else r
  (tree op l r).setType lt

def arithTree (op : Op) (l r : Node) : Option Node :=
  if !IS_ARITH l.type || !IS_ARITH r.type then none else some (arithProTree T op l r)

def intarithTree (op : Op) (l r : Node) : Option Node :=
  if !IS_INTARITH l.type || !IS_INTARITH r.type then none
  else if op = .LTLT ∨ op = .GTGT then
    let lt := Tree.arithPro l.type l.type
    let l := if lt ≠ r.type then makeCast T l lt else l
    some ((tree op l (makeCast T r CINT)).setType lt)
  else some (arithProTree T op l r)

def pointerconv (r : Node) (lt : CType) (warn : Bool) : Bool :=
  let rt := T.canonical r.type
  if isConstantZero r && PTR lt ≠ 0 then true
  else if PTR lt = 0 || PTR rt = 0 then false
  else if lt = rt then true
  else if lt &&& ~~~7 = VOID || rt &&& ~~~7 = VOID then true
  else if lt &&& ~~~7 < FLOAT && lt ^^^ rt = UNSIGNED then true
  else !warn

def pointermatch (l r : Node) : Bool :=
  if isConstantZero l && PTR (T.canonical r.type) ≠ 0 then true
  else pointerconv T r (T.canonical l.type) true

def ordercompTree (op : Op) (l r : Node) : Option Node :=
  if pointermatch T l r then some (boolTree (tree op l r) false)
  else (arithTree T op l r).map (boolTree · false)

def assignTree (l r : Node) : Option Node :=
  let lt := T.canonical l.type
  let rt := T.canonical r.type
  if lt = rt then some (sfTree T .EQ l r)
  else if PTR lt ≠ 0 then some (sfTree T .EQ l r)
  else if PTR rt ≠ 0 then none
  else if !IS_ARITH lt || !IS_ARITH rt then none
  else some (sfTree T .EQ l (makeCast T r l.type))

def logicTree (op : Op) (l r : Node) : Option Node :=
  if (PTR l.type = 0 && !IS_ARITH l.type) || (PTR r.type = 0 && !IS_ARITH r.type) then none
  else some ((tree op (boolTree l false) (boolTree r false)).setType CINT)

/-- What the last tests of `typeconv` leave. -/
def typeconvEnd (n : Node) (nt type : CType) (warn : Bool) : Option Node :=
  if nt = type ∨ (IS_ARITH nt ∧ IS_ARITH type) then some (makeCast T n type)
  else if ((IS_ARITH nt ∧ PTR type ≠ 0) ∨ (IS_ARITH type ∧ PTR nt ≠ 0)) ∧ !warn then some (makeCast T n type)
  else none

/-- A function becomes a pointer to it. -/
def functionPointer (n : Node) (type : CType) : Node :=
  if PTR type = 1 ∧ IS_FUNCTION n.type then n.setType (n.type + 1) else n

def typeconv (n : Node) (type : CType) (warn : Bool) : Option Node :=
  let nt := T.canonical n.type
  let n := functionPointer n type
  if n.type = type then some n
  else if PTR nt = 0 then
    if PTR type ≠ 0 ∧ IS_INTARITH nt then
      if warn ∧ !isConstantZero n then none else some (makeCast T n type)
    else if !IS_SIMPLE nt || !IS_ARITH nt || !IS_SIMPLE type || !IS_ARITH type then none
    else typeconvEnd T n nt type warn
  else if pointerconv T n type warn then some (makeCast T n type)
  else typeconvEnd T n nt type warn

def typeconvImplicit (n : Node) : Option Node :=
  if n.type = CCHAR ∨ n.type = UCHAR then typeconv T n CINT false
  else if n.type = FLOAT then typeconv T n DOUBLE false
  else some (n.setType (T.canonical n.type))

/-- A negative scale divides. -/
def ptrscaleBinop (op : Op) (l r : Node) : Option (Int × CType) :=
  if PTR l.type ≠ 0 ∧ PTR r.type ≠ 0 ∧ pointermatch T l r then
    if op = .MINUS then (T.ptrscale r.type).map fun s => (-s, T.ptrArith l.type) else none
  else if PTR l.type ≠ 0 ∧ IS_ARITH r.type then (T.ptrscale l.type).map fun s => (s, l.type)
  else if PTR r.type ≠ 0 ∧ IS_ARITH l.type then (T.ptrscale r.type).map fun s => (s, r.type)
  else none

end Fuzemsys.Fcc.Expression
