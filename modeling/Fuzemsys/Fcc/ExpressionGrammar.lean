import Fuzemsys.Fcc.Expression

/-!
# The expressions of C

An expression with its grouping, the tokens it is written with, and the tree it stands for.
-/

namespace Fuzemsys.Fcc.Expression

open Tree (CType CINT UINT VOID PTR)

/-- An expression as it is written. -/
inductive Expr where
  | name (n : Nat)
  | value (t : CType) (v : Nat)
  | paren (e : Expr)
  | index (e i : Expr)
  | callNone (e : Expr)
  | call (e args : Expr)
  | member (e : Expr) (n : Nat)
  | arrow (e : Expr) (n : Nat)
  | stepAfter (op : Op) (e : Expr)
  | stepBefore (op : Op) (e : Expr)
  | unary (op : Op) (e : Expr)
  | sizeofExpr (e : Expr)
  | sizeofType (words : List Tok) (t : CType)
  | cast (words : List Tok) (t : CType) (e : Expr)
  | binary (k : Level) (op : Op) (l r : Expr)
  | cond (c a b : Expr)
  | assign (op : Op) (l r : Expr)
  | comma (l r : Expr)
  /-- The last argument of a call, and one before others. -/
  | lastArg (e : Expr)
  | arg (e more : Expr)

namespace Level

/-- The smaller, the tighter. -/
def rank : Level → Nat
  | hier9 => 5
  | hier8 => 6
  | hier7 => 7
  | hier6 => 8
  | hier5 => 9
  | hier4 => 10
  | hier3 => 11
  | hier2 => 12
  | hier1c => 13
  | hier1b => 14

end Level

def stepOps : List Op := [.PLUSPLUS, .MINUSMINUS]

def unaryOps : List Op := [.TILDE, .MINUS, .BANG, .STAR, .AND]

/-- What the type names are. `type_name_parse` reads one to its end. -/
structure TypeNames (T : Types) where
  IsName : List Tok → CType → Prop
  starts : ∀ {words t} (rest : List Tok), IsName words t → startsType (words ++ rest) = true
  reads : ∀ {words t} (rest : List Tok), IsName words t →
    T.typeName (words ++ .op .RPAREN :: rest) = some (t, .op .RPAREN :: rest)

namespace Expr

/-- The rules of the grammar: primary, postfix, unary and cast expressions, binary ones by their
level, conditional expressions, assignments, expressions with commas, and arguments. -/
def level : Expr → Nat
  | name _ | value _ _ | paren _ => 1
  | index _ _ | callNone _ | call _ _ | member _ _ | arrow _ _ | stepAfter _ _ => 2
  | stepBefore _ _ | unary _ _ | sizeofExpr _ | sizeofType _ _ => 3
  | cast _ _ _ => 4
  | binary k _ _ _ => k.rank
  | cond _ _ _ => 15
  | assign _ _ _ => 16
  | comma _ _ => 17
  | lastArg _ | arg _ _ => 18

def toks : Expr → List Tok
  | name n => [.name n]
  | value t v => [.value t v]
  | paren e => .op .LPAREN :: e.toks ++ [.op .RPAREN]
  | index e i => e.toks ++ .op .LSQUARE :: i.toks ++ [.op .RSQUARE]
  | callNone e => e.toks ++ [.op .LPAREN, .op .RPAREN]
  | call e args => e.toks ++ .op .LPAREN :: args.toks ++ [.op .RPAREN]
  | member e n => e.toks ++ [.op .DOT, .name n]
  | arrow e n => e.toks ++ [.op .POINTSTO, .name n]
  | stepAfter op e => e.toks ++ [.op op]
  | stepBefore op e => .op op :: e.toks
  | unary op e => .op op :: e.toks
  | sizeofExpr e => .op .SIZEOF :: e.toks
  | sizeofType words _ => .op .SIZEOF :: .op .LPAREN :: words ++ [.op .RPAREN]
  | cast words _ e => .op .LPAREN :: words ++ .op .RPAREN :: e.toks
  | binary _ op l r => l.toks ++ .op op :: r.toks
  | cond c a b => c.toks ++ .op .QUESTION :: a.toks ++ .op .COLON :: b.toks
  | assign op l r => l.toks ++ .op op :: r.toks
  | comma l r => l.toks ++ .op .COMMA :: r.toks
  | lastArg e => e.toks
  | arg e more => e.toks ++ .op .COMMA :: more.toks

/-- The grammar of C. -/
def Grammatical {T : Types} (N : TypeNames T) : Expr → Prop
  | name _ | value _ _ => True
  | paren e => e.Grammatical N ∧ e.level ≤ 17
  | index e i => e.Grammatical N ∧ e.level ≤ 2 ∧ i.Grammatical N ∧ i.level ≤ 17
  | callNone e => e.Grammatical N ∧ e.level ≤ 2
  | call e args => e.Grammatical N ∧ e.level ≤ 2 ∧ args.Grammatical N ∧ args.level = 18
  | member e _ | arrow e _ => e.Grammatical N ∧ e.level ≤ 2
  | stepAfter op e => op ∈ stepOps ∧ e.Grammatical N ∧ e.level ≤ 2
  | stepBefore op e => op ∈ stepOps ∧ e.Grammatical N ∧ e.level ≤ 3
  | unary op e => op ∈ unaryOps ∧ e.Grammatical N ∧ e.level ≤ 4
  | sizeofExpr e => e.Grammatical N ∧ e.level ≤ 3
  | sizeofType words t => N.IsName words t
  | cast words t e => N.IsName words t ∧ e.Grammatical N ∧ e.level ≤ 4
  | binary k op l r => op ∈ k.ops ∧ l.Grammatical N ∧ l.level ≤ k.rank ∧ r.Grammatical N ∧ r.level < k.rank
  | cond c a b =>
    c.Grammatical N ∧ c.level ≤ 14 ∧ a.Grammatical N ∧ a.level ≤ 17 ∧ b.Grammatical N ∧ b.level ≤ 15
  | assign op l r =>
    (op = .EQ ∨ op ∈ assignOps) ∧ l.Grammatical N ∧ l.level ≤ 3 ∧ r.Grammatical N ∧ r.level ≤ 16
  | comma l r => l.Grammatical N ∧ l.level ≤ 17 ∧ r.Grammatical N ∧ r.level ≤ 16
  | lastArg e => e.Grammatical N ∧ e.level ≤ 16
  | arg e more => e.Grammatical N ∧ e.level ≤ 16 ∧ more.Grammatical N ∧ more.level = 18

section
variable (T : Types)

mutual

/-- The tree with the grouping of the expression. There is none if a type does not fit. -/
def denote : Expr → Option Node
  | name n => (T.symbol n).map (nameNode n)
  | value t v => some (makeConstant v t)
  | paren e => e.denote
  | index e i => do subscript T (← e.denote) (← i.denote)
  | callNone e => do
    let n := makeRval T (← e.denote)
    if !IS_FUNCTION n.type then none else callTree T n ⟨.null, 0, declaredArgs T n⟩
  | call e args => do
    let n := makeRval T (← e.denote)
    if !IS_FUNCTION n.type then none else callTree T n (← args.denoteArgs (declaredArgs T n))
  | member e n => do
    let l ← e.denote
    takeMember T l l.type n
  | arrow e n => do pointsTo T (← e.denote) n
  | stepAfter op e => do postfixTree T op (← e.denote)
  | stepBefore op e => do prefixTree T op (← e.denote)
  | unary op e => do unaryTree T op (← e.denote)
  | sizeofExpr e => do
    let size ← T.sizeof (← e.denote).type
    some (makeConstant size UINT)
  | sizeofType _ t => do
    let size ← T.sizeof t
    some (makeConstant size UINT)
  | cast _ t e => do castTree T t (← e.denote)
  | binary k op l r => do k.combine T op (← l.denote) (← r.denote)
  | cond c a b => do questionTree T (← c.denote) (← a.denote) (← b.denote)
  | assign op l r => do
    if op = .EQ then eqTree T (← l.denote) (← r.denote) else opEqTree T op (← l.denote) (← r.denote)
  | comma l r => do some (commaTree T (← l.denote) (← r.denote))
  | lastArg _ | arg _ _ => none

def denoteArgs : Expr → List CType → Option Args
  | lastArg e, declared => do argument T (← e.denote) declared
  | arg e more, declared => do
    let a ← argument T (← e.denote) declared
    some (argComma a (← more.denoteArgs a.left))
  | _, _ => none

end

end

/-! ## Lvalues -/

/-- Neither a function nor void. -/
def isObject (t : CType) : Bool := t ≠ VOID && !(IS_FUNCTION t && PTR t = 0)

def hasObjectType (T : Types) (e : Expr) : Bool := (e.denote T).any fun t => isObject t.type

/-- What C calls an lvalue. -/
def isLvalue (T : Types) : Expr → Bool
  | name n =>
    match T.symbol n with
    | some (.object _ t _) => isObject t
    | _ => false
  | paren e => e.isLvalue T
  | index e i => (index e i).hasObjectType T
  | member e _ => e.isLvalue T
  | arrow _ _ => true
  | unary .STAR e => (unary .STAR e).hasObjectType T
  | _ => false

/-- The type of a cast is another than that of the array in it. -/
def castsOther (T : Types) (ty : CType) (t : Node) : Bool :=
  !(makeRval T t).lval || (t.type ≠ ty && T.canonical t.type ≠ ty)

/-- The expressions that are marked as they should be. -/
def MarkedRight (T : Types) : Expr → Prop
  | name n => ∀ storage t offset, T.symbol n = some (.object storage t offset) → isObject t = true
  | paren e => e.MarkedRight T
  | index e i => (index e i).hasObjectType T = true
  | member e _ => e.isLvalue T = true
  | unary .STAR e => (unary .STAR e).hasObjectType T = true
  | cast _ ty e => ∀ t, e.denote T = some t → castsOther T ty t = true
  | _ => True

end Expr

/-! ## What the routines can read -/

/-- The level of the routine that goes on at this token. -/
def Op.rank : Op → Nat
  | .LSQUARE | .LPAREN | .DOT | .POINTSTO => 2
  | .PLUSPLUS | .MINUSMINUS => 3
  | .STAR | .PERCENT | .SLASH => 5
  | .PLUS | .MINUS => 6
  | .GTGT | .LTLT => 7
  | .LT | .GT | .LTEQ | .GTEQ => 8
  | .EQEQ | .BANGEQ => 9
  | .AND => 10
  | .HAT => 11
  | .OR => 12
  | .ANDAND => 13
  | .OROR => 14
  | .QUESTION => 15
  | .EQ | .MINUSEQ | .PLUSEQ | .STAREQ | .SLASHEQ | .PERCENTEQ | .SHREQ | .SHLEQ | .ANDEQ | .HATEQ | .OREQ => 16
  | .COMMA => 17
  | _ => 18

/-- No routine up to this level goes on. -/
def Stops (r : Nat) : List Tok → Prop
  | .op o :: _ => r < o.rank
  | _ => True

namespace Expr

/-- The level at which an expression is read. `++` and `--` come after all other postfix operators. -/
def rank : Expr → Nat
  | stepAfter _ _ => 3
  | e => e.level

/-- The first token is a bracket. -/
def startsParen : Expr → Bool
  | paren _ => true
  | index e _ | callNone e | call e _ | member e _ | arrow e _ | stepAfter _ e => e.startsParen
  | _ => false

/-- It ends with a `sizeof` that would read on. -/
def openSizeof : Expr → Bool
  | sizeofExpr e => !e.startsParen
  | stepBefore _ e | unary _ e | cast _ _ e => e.openSizeof
  | binary _ _ _ r | assign _ _ r | comma _ r => r.openSizeof
  | cond _ _ b => b.openSizeof
  | _ => false

/-- The size of a whole bracket, or of something without one in front. -/
def sizedRight : Expr → Prop
  | paren e => e.level ≤ 16
  | e => e.startsParen = false

/-- The expressions that are read with their grouping. -/
def Suits : Expr → Prop
  | name _ | value _ _ => True
  | paren e => e.Suits
  | index e i => e.Suits ∧ e.rank ≤ 2 ∧ i.Suits
  | callNone e | member e _ | arrow e _ | stepAfter _ e => e.Suits ∧ e.rank ≤ 2
  | call e args => e.Suits ∧ e.rank ≤ 2 ∧ args.Suits
  | stepBefore _ e | unary _ e | cast _ _ e => e.Suits
  | sizeofExpr e => e.Suits ∧ e.sizedRight
  | sizeofType words _ => startsSizedType words = true
  | binary _ _ l r => l.Suits ∧ l.openSizeof = false ∧ r.Suits
  | cond c a b => c.Suits ∧ c.openSizeof = false ∧ a.Suits ∧ a.level ≤ 15 ∧ b.Suits
  | assign _ l r => l.Suits ∧ l.openSizeof = false ∧ r.Suits
  | comma l r => l.Suits ∧ l.level ≤ 16 ∧ r.Suits
  | lastArg e => e.Suits
  | arg e more => e.Suits ∧ more.Suits

end Expr

end Fuzemsys.Fcc.Expression
