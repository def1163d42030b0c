import Fuzemsys.Lib.LabelCode
import Fuzemsys.Fcc.Token

/-!
# If, while and do

The second pass writes a header for each part of a statement, with what it knows of
the truth of the condition, and the condition itself if it knows nothing. The back end
makes labels and branches of the headers.
-/

open Fuzemsys.Lib

namespace Fuzemsys.Fcc.Statement

variable {h : Host}

/-! ## Conditions -/

inductive ConstType where
  | char
  | int
  | long
  | pointer
  | float
  deriving DecidableEq, Repr

structure Constant (h : Host) where
  type : ConstType
  value : BitVec h.longBits
  deriving DecidableEq

/-- A tree, as far as the statements look into it. -/
inductive Expr (h : Host) where
  | constant (c : Constant h)
  | bool (r : Expr h)
  | other (id : Nat)
  deriving DecidableEq

/-- The T_BOOL on top of a condition is not optimized. -/
def boolTree : Expr h → Expr h
  | .bool r => .bool r
  | n => .bool n

/-- The tree of a condition, and its truth: a constant, or -1 for unknown. -/
def logicExpression (e : Expr h) : Expr h × BitVec h.intBits :=
  match boolTree e with
  | .bool (.constant c) => (.bool (.constant c), c.value.setWidth h.intBits)
  | n => (n, -1)

/-! ## Headers -/

inductive HType where
  | H_IF
  | H_ELSE
  | H_WHILE
  | H_DO
  | H_DOWHILE
  | H_BREAK
  | H_CONTINUE
  deriving DecidableEq, Repr

/-- Who wrote a tree. The back end cannot see it. -/
inductive Use where
  | condition
  | statement
  deriving DecidableEq, Repr

inductive Item (h : Host) where
  | header (type : HType) (name : Nat) (data : BitVec h.intBits)
  | footer (type : HType) (name : Nat) (data : BitVec h.intBits)
  | tree (use : Use) (n : Expr h)
  deriving DecidableEq

def writeLogicTree (n : Expr h) (truth : BitVec h.intBits) : List (Item h) :=
  if truth = -1 then [.tree .condition n] else []

/-! ## Statements -/

inductive Stmt (h : Host) where
  | empty
  | expr (e : Expr h)
  | seq (s1 s2 : Stmt h)
  | ifThen (e : Expr h) (s : Stmt h)
  | ifElse (e : Expr h) (s1 s2 : Stmt h)
  | while (e : Expr h) (s : Stmt h)
  | doWhile (s : Stmt h) (e : Expr h)
  | break
  | continue

/-- The tags of the loop around a statement. -/
structure Tags where
  breakTag : Nat
  contTag : Nat

/-- What is written for a statement, and the next tag. -/
def statement (tags : Tags) (nextTag : Nat) : Stmt h → List (Item h) × Nat
  | .empty => ([], nextTag)
  | .expr e => ([.tree .statement e], nextTag)
  | .seq s1 s2 =>
    let (items1, next1) := statement tags nextTag s1
    let (items2, next2) := statement tags next1 s2
    (items1 ++ items2, next2)
  | .ifThen e s =>
    let tag := nextTag
    let (n, t) := logicExpression e
    let (body, next) := statement tags (nextTag + 1) s
    (.header .H_IF tag t :: writeLogicTree n t ++ body ++ [.footer .H_IF tag 0], next)
  | .ifElse e s1 s2 =>
    let tag := nextTag
    let (n, t) := logicExpression e
    let (body1, next1) := statement tags (nextTag + 1) s1
    let (body2, next2) := statement tags next1 s2
    (.header .H_IF tag t :: writeLogicTree n t ++ body1 ++ .header .H_ELSE tag t :: body2 ++ [.footer .H_IF tag 1],
      next2)
  | .while e s =>
    let tag := nextTag
    let (n, t) := logicExpression e
    let (body, next) := statement ⟨tag, tag⟩ (nextTag + 1) s
    (.header .H_WHILE tag t :: writeLogicTree n t ++ body ++ [.footer .H_WHILE tag t], next)
  | .doWhile s e =>
    let tag := nextTag
    let (body, next) := statement ⟨tag, tag⟩ (nextTag + 1) s
    let (n, t) := logicExpression e
    (.header .H_DO tag 0 :: body ++ .header .H_DOWHILE tag t :: writeLogicTree n t ++ [.footer .H_DOWHILE tag t],
      next)
  | .break => ([.header .H_BREAK tags.breakTag 0], nextTag)
  | .continue => ([.header .H_CONTINUE tags.contTag 0], nextTag)

/-! ## The back end -/

/-- `_e12` is label `e` with number 12. -/
inductive LabelName where
  | b
  | c
  | e
  | f
  | t
  deriving DecidableEq, Repr

abbrev Label := LabelName × Nat

abbrev Code (h : Host) := List (Instr Label (Expr h) (Expr h))

/-- The code for a header, and the branch that follows an expression if one is compiled with it. -/
def processHeader (name : Nat) (data : BitVec h.intBits) :
    HType → Code h × Option (Expr h → Instr Label (Expr h) (Expr h))
  | .H_IF =>
    if data = -1 then ([], some fun n => .jfalse n (.e, name))
    else if data = 0 then ([.jump (.e, name)], none)
    else ([], none)
  | .H_ELSE => (.jump (.f, name) :: if data ≠ 1 then [.label (.e, name)] else [], none)
  | .H_WHILE =>
    if data = -1 then ([.label (.c, name)], some fun n => .jfalse n (.b, name))
    else if data = 0 then ([.label (.c, name), .jump (.b, name)], none)
    else ([.label (.c, name)], none)
  | .H_DO => ([.label (.t, name)], none)
  | .H_DOWHILE =>
    if data = -1 then ([.label (.c, name)], some fun n => .jtrue n (.t, name))
    else if data = 1 then ([.label (.c, name), .jump (.t, name)], none)
    else ([.label (.c, name)], none)
  | .H_BREAK => ([.jump (.b, name)], none)
  | .H_CONTINUE => ([.jump (.c, name)], none)

/-- `none` is "bad hdr", or a header of its own that the statements do not write. -/
def processFooter (name : Nat) (data : BitVec h.intBits) : HType → Option (Code h)
  | .H_IF => some (if data ≠ 0 then [.label (.f, name)] else [.label (.e, name)])
  | .H_WHILE => some ((if data ≠ 0 then [.jump (.c, name)] else []) ++ [.label (.b, name)])
  | .H_DO => some [.jump (.t, name), .label (.b, name)]
  | .H_DOWHILE => some [.label (.b, name)]
  | _ => none

/-- The code for a stream. Where a tree is needed and not there it is `none`. -/
def process : List (Item h) → Option (Code h)
  | [] => some []
  | .tree _ n :: items => (process items).map (.act n :: ·)
  | .footer type name data :: items => do
    let code ← processFooter name data type
    let rest ← process items
    some (code ++ rest)
  | .header type name data :: items =>
    match processHeader name data type, items with
    | (code, none), items => (process items).map (code ++ ·)
    | (code, some branch), .tree _ n :: items => (process items).map (code ++ branch n :: ·)
    | (_, some _), _ => none

end Fuzemsys.Fcc.Statement
