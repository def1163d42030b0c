import Fuzemsys.Fcc.ExpressionNode

/-!
# The routines of expression.c

One routine for each level of precedence. `run` gives them as many nested calls as it is told.
-/

namespace Fuzemsys.Fcc.Expression

open Tree (CType UNSIGNED CCHAR UCHAR CINT UINT FLOAT DOUBLE VOID PTRTO PTR IS_ARITH IS_INTARITH isUnsigned)

abbrev Parser (α : Type) := List Tok → Option (α × List Tok)

/-- The routines with the operators that associate to the left. -/
inductive Level where
  | hier9
  | hier8
  | hier7
  | hier6
  | hier5
  | hier4
  | hier3
  | hier2
  | hier1c
  | hier1b
  deriving DecidableEq, Repr

inductive Routine where
  | primary
  | hier11
  /-- The loop of `hier11`. -/
  | hier11Loop (l : Node)
  | hier10
  | level (k : Level)
  /-- The loop of a level. -/
  | levelLoop (k : Level) (l : Node)
  | hier1a
  | hier1
  | hier0 (comma : Bool)
  | hier0Loop (comma : Bool) (l : Node)

/-- The arguments of a call, their size, and the declared ones that are left. -/
structure Args where
  node : Node
  size : Nat
  left : List CType

/-- The routines that may be called. -/
structure Calls where
  call : Routine → Parser Node
  args : List CType → Parser Args

def require (o : Op) (ts : List Tok) : Option (List Tok) :=
  match ts with
  | t :: ts => if t = .op o then some ts else none
  | [] => none

variable (T : Types) (C : Calls)

/-! ## primary.c -/

def primary : Parser Node
  | .op .LPAREN :: ts => do
    let (l, ts) ← C.call (.hier0 true) ts
    let ts ← require .RPAREN ts
    some (l, ts)
  | .name n :: ts => (T.symbol n).map fun s => (nameNode n s, ts)
  | .value t v :: ts => some (makeConstant v t, ts)
  | _ => none

/-! ## Calls -/

/-- The conversion of one argument, and the declared ones after it. -/
def convertArg (n : Node) : List CType → Option (Node × List CType)
  | [] => none
  | t :: left =>
    if t = VOID then none
    else if t = ELLIPSIS then (typeconvImplicit T n).map fun n => (n, t :: left)
    else (typeconv T n (T.canonical t) true).map fun n => (n, left)

def argument (n : Node) (args : List CType) : Option Args :=
  (convertArg T (makeRval T n) args).map fun (n, left) => ⟨n, T.argsize n.type, left⟩

/-- Switch around for calling order -/
def argComma (arg more : Args) : Args :=
  ⟨(tree .ARGCOMMA more.node arg.node).setType arg.node.type, arg.size + more.size, more.left⟩

def callArgs (args : List CType) : Parser Args := fun ts => do
  let (n, ts) ← C.call (.hier0 false) ts
  let arg ← argument T n args
  match ts with
  | .op .COMMA :: ts => do
    let (more, ts) ← C.args arg.left ts
    some (argComma arg more, ts)
  | ts => do
    let ts ← require .RPAREN ts
    some (arg, ts)

/-- None may be missing. -/
def enough (first : CType) : List CType → Bool
  | [] => true
  | t :: _ => t = ELLIPSIS || first = ELLIPSIS || first = VOID

/-- A function that has no prototype takes any. -/
def declaredArgs (n : Node) : List CType := if T.funcArgs n.type = [] then [ELLIPSIS] else T.funcArgs n.type

/-- The boundary of a call is always told. -/
def callTree (n : Node) (args : Args) : Option Node :=
  if enough ((declaredArgs T n).headD ELLIPSIS) args.left then
    some (tree .CLEANUP ((sfTree T .FUNCCALL args.node n).setType (T.funcReturn n.type)) (makeConstant args.size UINT))
  else none

def functionCall (n : Node) : Parser Node := fun ts =>
  if !IS_FUNCTION n.type then none
  else
    match ts with
    | .op .RPAREN :: ts => (callTree T n ⟨.null, 0, declaredArgs T n⟩).map fun n => (n, ts)
    | ts => do
      let (args, ts) ← C.args (declaredArgs T n) ts
      let n ← callTree T n args
      some (n, ts)

/-! ## Postfix operators -/

/-- The address is that of the element, and an lvalue. -/
def subscript (l r : Node) : Option Node := do
  if PTR (T.canonical l.type) = 0 then none
  else
    let r ← typeconv T (makeRval T r) UINT false
    let scale ← T.ptrscale l.type
    let t ← T.deref l.type
    some (((tree .PLUS (makeRval T l) (tree .STAR r (makeConstant scale UINT))).setLval true).setType t)

/-- `lt` is the type of the structure. -/
def takeMember (l : Node) (lt : CType) (name : Nat) : Option Node :=
  if PTR lt ≠ 0 || !IS_STRUCT lt then none
  else do
    let (t, offset) ← T.findMember lt name
    let l := l.setType (PTRTO ||| t)
    some (((tree .PLUS l (makeConstant offset UINT)).setLval true).setType t)

/-- The pointer holds the address of the structure. -/
def pointsTo (l : Node) (name : Nat) : Option Node := do
  let lt ← T.deref l.type
  takeMember T ((makeRval T l).setLval true) lt name

/-- One operator after an operand. -/
def hier11Loop (l : Node) : Parser Node
  | .op .LSQUARE :: ts => do
    let (r, ts) ← C.call (.hier0 true) ts
    let ts ← require .RSQUARE ts
    let l ← subscript T l r
    C.call (.hier11Loop l) ts
  | .op .LPAREN :: ts => do
    let (l, ts) ← functionCall T C (makeRval T l) ts
    C.call (.hier11Loop l) ts
  | .op .DOT :: .name n :: ts => do
    let l ← takeMember T l l.type n
    C.call (.hier11Loop l) ts
  | .op .POINTSTO :: .name n :: ts => do
    let l ← pointsTo T l n
    C.call (.hier11Loop l) ts
  | .op .DOT :: _ => none
  | .op .POINTSTO :: _ => none
  | ts => some (l, ts)

def hier11 : Parser Node := fun ts => do
  let (l, ts) ← C.call .primary ts
  C.call (.hier11Loop l) ts

/-! ## Unary operators -/

def startsType : List Tok → Bool
  | .typeWord _ :: _ => true
  | .modifier _ :: _ => true
  | _ => false

/-- A modifier does not start a type here. -/
def startsSizedType : List Tok → Bool
  | .typeWord _ :: _ => true
  | _ => false

def getSizeof : Parser Node := fun ts => do
  let (wantParen, ts) := match ts with
    | .op .LPAREN :: ts => (true, ts)
    | ts => (false, ts)
  if startsSizedType ts then
    let (t, ts) ← T.typeName ts
    let ts ← require .RPAREN ts
    let size ← T.sizeof t
    some (makeConstant size UINT, ts)
  else
    let (n, ts) ← C.call (.hier0 false) ts
    let size ← T.sizeof n.type
    let ts ← if wantParen then require .RPAREN ts else some ts
    some (makeConstant size UINT, ts)

def prefixOps : List Op := [.PLUSPLUS, .SIZEOF, .MINUSMINUS, .MINUS, .TILDE, .BANG, .STAR, .AND]

/-- `++` and `--` before an operand. -/
def prefixTree (op : Op) (r : Node) : Option Node :=
  if !r.lval then none
  else
    let op := if op = .PLUSPLUS then Op.PLUSEQ else .MINUSEQ
    if PTR r.type ≠ 0 then (typeScale T r.type).map fun s => sfTree T op r (makeConstant s UINT)
    else some (sfTree T op r (makeConstant 1 r.type))

/-- `++` and `--` after an operand. -/
def postfixTree (op : Op) (l : Node) : Option Node :=
  if !l.lval then none
  else (typeScale T l.type).map fun s =>
    sfTree T op l (makeConstant s (if PTR l.type ≠ 0 then UINT else l.type))

def unaryTree (op : Op) (r : Node) : Option Node :=
  match op with
  | .TILDE =>
    let r := makeRval T r
    if !IS_INTARITH r.type then none else some (tree .TILDE .null r)
  | .MINUS =>
    let r := makeRval T r
    if !IS_ARITH r.type && PTR r.type = 0 then none else some (tree .NEGATE .null r)
  | .BANG =>
    let r := makeRval T r
    if !IS_ARITH r.type && PTR r.type = 0 then none else some (boolTree (tree .BANG .null r) false)
  | .STAR =>
    let r := makeRval T r
    if PTR r.type = 0 then none else (T.deref r.type).map fun t => (r.setLval true).setType t
  | .AND =>
    if r.op = some .REG then none
    else if r.lval then (T.ptr r.type).map fun t => (r.setLval false).setType t
    else (T.addrof r.type).map fun t => (tree .ADDROF .null r).setType t
  | _ => none

def castTree (t : CType) (r : Node) : Option Node := typeconv T (makeRval T r) t false

def hier10 : Parser Node
  | .op .LPAREN :: ts =>
    if startsType ts then do
      let (t, ts) ← T.typeName ts
      let ts ← require .RPAREN ts
      let (r, ts) ← C.call .hier10 ts
      let n ← castTree T t r
      some (n, ts)
    else trailing (.op .LPAREN :: ts)
  | .op .SIZEOF :: ts => getSizeof T C ts
  | .op o :: ts =>
    if o ∈ prefixOps then do
      let (r, ts) ← C.call .hier10 ts
      let n ← if o = .PLUSPLUS ∨ o = .MINUSMINUS then prefixTree T o r else unaryTree T o r
      some (n, ts)
    else trailing (.op o :: ts)
  | ts => trailing ts
where
  /-- Check for trailing forms -/
  trailing : Parser Node := fun ts => do
    let (l, ts) ← C.call .hier11 ts
    match ts with
    | .op .PLUSPLUS :: ts => (postfixTree T .PLUSPLUS l).map fun n => (n, ts)
    | .op .MINUSMINUS :: ts => (postfixTree T .MINUSMINUS l).map fun n => (n, ts)
    | ts => some (l, ts)

/-! ## Binary operators -/

def Level.ops : Level → List Op
  | hier9 => [.STAR, .PERCENT, .SLASH]
  | hier8 => [.PLUS, .MINUS]
  | hier7 => [.GTGT, .LTLT]
  | hier6 => [.LT, .GT, .LTEQ, .GTEQ]
  | hier5 => [.EQEQ, .BANGEQ]
  | hier4 => [.AND]
  | hier3 => [.HAT]
  | hier2 => [.OR]
  | hier1c => [.ANDAND]
  | hier1b => [.OROR]

/-- The routine for the operands. -/
def Level.operand : Level → Routine
  | hier9 => .hier10
  | hier8 => .level hier9
  | hier7 => .level hier8
  | hier6 => .level hier7
  | hier5 => .level hier6
  | hier4 => .level hier5
  | hier3 => .level hier4
  | hier2 => .level hier3
  | hier1c => .level hier2
  | hier1b => .level hier1c

def scaled (n : Node) (scale : Int) : Node := if scale ≠ 0 then tree .STAR n (makeConstant scale UINT) else n

/-- Sums and differences, with the pointer scaling rules. -/
def sumTree (op : Op) (l r : Node) : Option Node :=
  if IS_ARITH l.type && IS_ARITH r.type then arithTree T op l r
  else do
    let (scale, rt) ← ptrscaleBinop T op l r
    let n ←
      if scale < 0 then some (tree .SLASH (tree op l r) (makeConstant (-scale) UINT))
      else if PTR l.type ≠ 0 then (typeconv T r UINT false).map fun r => tree op l (scaled r scale)
      else (typeconv T l UINT false).map fun l => tree op (scaled l scale) r
    some (n.setType rt)

def Level.combine (k : Level) (op : Op) (l r : Node) : Option Node :=
  let l := makeRval T l
  let r := makeRval T r
  match k with
  | hier9 => if op = .PERCENT then intarithTree T op l r else arithTree T op l r
  | hier8 => sumTree T op l r
  | hier7 => intarithTree T op l r
  | hier6 | hier5 => ordercompTree T op l r
  | hier4 | hier3 | hier2 => intarithTree T op l r
  | hier1c | hier1b => logicTree op l r

def level (k : Level) : Parser Node := fun ts => do
  let (l, ts) ← C.call k.operand ts
  C.call (.levelLoop k l) ts

def levelLoop (k : Level) (l : Node) : Parser Node
  | .op o :: ts =>
    if o ∈ k.ops then do
      let (r, ts) ← C.call k.operand ts
      let l ← k.combine T o l r
      C.call (.levelLoop k l) ts
    else some (l, .op o :: ts)
  | ts => some (l, ts)

/-! ## The other operators -/

def questionTree (l a1 a2 : Node) : Option Node :=
  let l := makeRval T l
  let a1 := makeRval T a1
  let a2 := makeRval T a2
  if PTR l.type = 0 && !IS_ARITH l.type then none
  else
    let a1t := T.canonical a1.type
    let a2t := T.canonical a2.type
    if a1t = a2t || pointermatch T a1 a2 || (IS_ARITH a1t && IS_ARITH a2t) then
      (typeconv T a2 a1t true).map fun a2 =>
        (tree .QUESTION (boolTree l true) (tree .COLON a1 a2)).setType a1t
    else none

/-- Both sides of the colon are read by `hier1a`. -/
def hier1a : Parser Node := fun ts => do
  let (l, ts) ← C.call (.level .hier1b) ts
  match ts with
  | .op .QUESTION :: ts => do
    let (a1, ts) ← C.call .hier1a ts
    let ts ← require .COLON ts
    let (a2, ts) ← C.call .hier1a ts
    let n ← questionTree T l a1 a2
    some (n, ts)
  | ts => some (l, ts)

def assignOps : List Op :=
  [.MINUSEQ, .PLUSEQ, .STAREQ, .SLASHEQ, .PERCENTEQ, .SHREQ, .SHLEQ, .ANDEQ, .HATEQ, .OREQ]

def eqTree (l r : Node) : Option Node :=
  let r := makeRval T r
  let t := T.canonical l.type
  if !l.lval then none
  else if !IS_SIMPLE t && PTR t = 0 then none
  else assignTree T (l.setType t) r

/-- `scale` is 1 but for a sum with a pointer. -/
def opEqTree (fc : Op) (l r : Node) : Option Node :=
  if !l.lval then none
  else do
    let r := makeRval T r
    let scale ← if fc = .MINUSEQ ∨ fc = .PLUSEQ then typeScale T l.type else some 1
    let arith := if fc ∈ [Op.MINUSEQ, .PLUSEQ, .STAREQ, .SLASHEQ] then IS_ARITH r.type else IS_INTARITH r.type
    if !arith then none
    else
      let r := makeCast T r l.type
      some (sfTree T fc l (if scale ≠ 0 then tree .STAR r (makeConstant scale UINT) else r))

def hier1 : Parser Node := fun ts => do
  let (l, ts) ← C.call .hier1a ts
  match ts with
  | .op o :: ts =>
    if o = .EQ then do
      let (r, ts) ← C.call .hier1 ts
      let n ← eqTree T l r
      some (n, ts)
    else if o ∈ assignOps then do
      let (r, ts) ← C.call .hier1 ts
      let n ← opEqTree T o l r
      some (n, ts)
    else some (l, .op o :: ts)
  | ts => some (l, ts)

def commaTree (l r : Node) : Node :=
  let l := l.modify fun f => { f with noReturn := true }
  (tree .COMMA (makeRval T l) (makeRval T r)).setType r.type

def hier0 (comma : Bool) : Parser Node := fun ts => do
  let (l, ts) ← C.call .hier1 ts
  C.call (.hier0Loop comma l) ts

def hier0Loop (comma : Bool) (l : Node) : Parser Node
  | .op o :: ts =>
    if comma ∧ o = .COMMA then do
      let (r, ts) ← C.call (.hier0 comma) ts
      C.call (.hier0Loop comma (commaTree T l r)) ts
    else some (l, .op o :: ts)
  | ts => some (l, ts)

/-! ## Runs -/

def body : Calls where
  call
    | .primary => primary T C
    | .hier11 => hier11 C
    | .hier11Loop l => hier11Loop T C l
    | .hier10 => hier10 T C
    | .level k => level C k
    | .levelLoop k l => levelLoop T C k l
    | .hier1a => hier1a T C
    | .hier1 => hier1 T C
    | .hier0 comma => hier0 C comma
    | .hier0Loop comma l => hier0Loop T C comma l
  args := callArgs T C

def noCalls : Calls := ⟨fun _ _ => none, fun _ _ => none⟩

def run : Nat → Calls
  | 0 => noCalls
  | depth + 1 => body T (run depth)

end Fuzemsys.Fcc.Expression
