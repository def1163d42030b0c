import Fuzemsys.Fcc.Statement
import Fuzemsys.Fcc.Tree

/-!
# Function bodies

The statement parser on the syntax it accepts. It keeps what it knows of the loops
and switches around a statement in static variables, and the values of all open
switches in one table.
-/

namespace Fuzemsys.Fcc.Body

open Statement (Expr logicExpression)
open Tree (CType CINT IS_INTARITH)

variable {h : Host}

/-! ## Syntax -/

/-- A `case` or `default` is a statement of its own. -/
inductive Stmt (h : Host) where
  | empty
  | expr (n : Expr h)
  /-- Statements between braces, two at a time. -/
  | seq (s1 s2 : Stmt h)
  | label (name : Nat)
  | ifThen (e : Expr h) (s : Stmt h)
  | ifElse (e : Expr h) (s1 s2 : Stmt h)
  | while (e : Expr h) (s : Stmt h)
  | doWhile (s : Stmt h) (e : Expr h)
  | for (e1 e2 e3 : Expr h) (s : Stmt h)
  | return (n : Expr h)
  | break
  | continue
  | goto (name : Nat)
  /-- The expression has the type `t`. -/
  | switch (n : Expr h) (t : CType) (s : Stmt h)
  /-- The value, if the expression is a constant. -/
  | case (value : Option (BitVec h.longBits))
  | default

/-! ## What is written -/

inductive HType where
  | H_FUNCTION
  | H_FRAME
  | H_IF
  | H_ELSE
  | H_WHILE
  | H_DO
  | H_DOWHILE
  | H_FOR
  | H_SWITCH
  | H_CASE
  | H_DEFAULT
  | H_BREAK
  | H_CONTINUE
  | H_RETURN
  | H_LABEL
  | H_GOTO
  | H_SWITCHTAB
  deriving DecidableEq, Repr

inductive Message where
  | breakOutside
  | continueOutside
  | badType
  | caseOutside
  | notconst
  | defaultOutside
  | twoDefaults
  deriving DecidableEq, Repr

def Message.text : Message → String
  | .breakOutside => "break outside of block"
  | .continueOutside => "continue outside of block"
  | .badType => "bad type"
  | .caseOutside => "case outside of switch"
  | .notconst => "must evaluate to a constant"
  | .defaultOutside => "default outside of switch"
  | .twoDefaults => "two default cases"

inductive Event (h : Host) where
  | header (type : HType) (name data : Nat)
  | footer (type : HType) (name data : Nat)
  | tree (n : Expr h)
  /-- `put_typed_constant` -/
  | constant (type : CType) (value : BitVec h.longBits)
  /-- `put_typed_case` -/
  | caseLabel (tag entry : Nat)
  | error (message : Message)
  deriving DecidableEq

/-! ## The static variables -/

structure Statics (h : Host) where
  nextTag : Nat
  funcTag : Nat
  breakTag : Nat
  contTag : Nat
  switchTag : Nat
  switchCount : Nat
  switchType : CType
  switchDefault : Bool
  /-- `switch_table` up to `switch_next`. -/
  table : List (BitVec h.longBits)

def Statics.start : Statics h := ⟨0, 0, 0, 0, 0, 0, 0, false, []⟩

def NUM_SWITCH : Nat := 128

/-- A new tag for a statement. -/
def Statics.tag (g : Statics h) : Statics h := { g with nextTag := g.nextTag + 1 }

def Statics.enterLoop (g : Statics h) : Statics h :=
  { g with nextTag := g.nextTag + 1, breakTag := g.nextTag, contTag := g.nextTag }

def Statics.leaveLoop (g old : Statics h) : Statics h := { g with breakTag := old.breakTag, contTag := old.contTag }

/-- Only integral types. -/
def Statics.enterSwitch (g : Statics h) (t : CType) : Statics h :=
  { g with
    nextTag := g.nextTag + 2
    breakTag := g.nextTag + 1
    switchTag := g.nextTag
    switchCount := 0
    switchType := if IS_INTARITH t then t else CINT }

/-- `swptr` is where the table was. -/
def Statics.leaveSwitch (g old : Statics h) (swptr : Nat) : Statics h :=
  { g with
    breakTag := old.breakTag
    switchTag := old.switchTag
    switchCount := old.switchCount
    switchType := old.switchType
    switchDefault := old.switchDefault
    table := g.table.take swptr }

/-! ## switch.c -/

/-- The entries from number `count + 1` on. -/
def tableEntries (tag : Nat) (type : CType) (count : Nat) : List (BitVec h.longBits) → List (Event h)
  | [] => []
  | value :: values => .constant type value :: .caseLabel tag (count + 1) :: tableEntries tag type (count + 1) values

/-- The table, and the default behind it. -/
def switchDone (g : Statics h) (swptr : Nat) : List (Event h) :=
  let values := g.table.drop swptr
  .header .H_SWITCHTAB g.switchTag values.length :: tableEntries g.switchTag g.switchType 0 values ++
    [.caseLabel g.switchTag 0, .footer .H_SWITCHTAB g.switchTag 0]

/-- "switch table full" ends the compiler. -/
def switchAddNode (g : Statics h) (value : BitVec h.longBits) : Option (Statics h) :=
  if g.table.length = NUM_SWITCH then none else some { g with table := g.table ++ [value] }

/-! ## body.c -/

def errorIf (c : Prop) [Decidable c] (m : Message) : List (Event h) := if c then [.error m] else []

def logicTree (e : Expr h) : List (Event h) :=
  let (n, t) := logicExpression e
  if t = -1 then [.tree n] else []

def truth (e : Expr h) : Nat := (logicExpression e).2.toNat

def caseStatement (g : Statics h) (value : Option (BitVec h.longBits)) : Option (List (Event h) × Statics h) := do
  let g' ← match value with
    | some value => switchAddNode g value
    | none => some g
  let count := g.switchCount + 1
  some (errorIf (g.switchTag = 0) .caseOutside ++ errorIf (value = none) .notconst ++ [.header .H_CASE g.switchTag count],
    { g' with switchCount := count })

def defaultStatement (g : Statics h) : List (Event h) × Statics h :=
  (errorIf (g.switchTag = 0) .defaultOutside ++ errorIf (g.switchDefault = true) .twoDefaults ++
    [.header .H_DEFAULT g.switchTag 0], { g with switchDefault := true })

/-- What `switch_statement` writes behind the statement. No default means non matched cases fall through to the end. -/
def endSwitch (g : Statics h) (swptr : Nat) : List (Event h) :=
  .footer .H_SWITCH g.switchTag g.breakTag ::
    (if g.switchDefault then [] else [.header .H_DEFAULT g.switchTag 0]) ++ switchDone g swptr

def statement : Stmt h → Statics h → Option (List (Event h) × Statics h)
  | .empty, g => some ([], g)
  | .expr n, g => some ([.tree n], g)
  | .seq s1 s2, g => do
    let (ev1, g1) ← statement s1 g
    let (ev2, g2) ← statement s2 g1
    some (ev1 ++ ev2, g2)
  | .label name, g => some ([.header .H_LABEL g.funcTag name], g)
  | .ifThen e s, g => do
    let tag := g.nextTag
    let (ev, g') ← statement s g.tag
    some (.header .H_IF tag (truth e) :: logicTree e ++ ev ++ [.footer .H_IF tag 0], g')
  | .ifElse e s1 s2, g => do
    let tag := g.nextTag
    let (ev1, g1) ← statement s1 g.tag
    let (ev2, g2) ← statement s2 g1
    some (.header .H_IF tag (truth e) :: logicTree e ++ ev1 ++ .header .H_ELSE tag (truth e) :: ev2 ++
      [.footer .H_IF tag 1], g2)
  | .while e s, g => do
    let tag := g.nextTag
    let (ev, g') ← statement s g.enterLoop
    some (.header .H_WHILE tag (truth e) :: logicTree e ++ ev ++ [.footer .H_WHILE g'.contTag (truth e)], g'.leaveLoop g)
  | .doWhile s e, g => do
    let tag := g.nextTag
    let (ev, g') ← statement s g.enterLoop
    some (.header .H_DO tag 0 :: ev ++ .header .H_DOWHILE g'.contTag (truth e) :: logicTree e ++
      [.footer .H_DOWHILE g'.contTag (truth e)], g'.leaveLoop g)
  | .for e1 e2 e3 s, g => do
    let tag := g.nextTag
    let (ev, g') ← statement s g.enterLoop
    some (.header .H_FOR tag tag :: .tree e1 :: .tree e2 :: .tree e3 :: ev ++
      [.footer .H_FOR g'.contTag g'.breakTag], g'.leaveLoop g)
  | .return n, g => some ([.header .H_RETURN g.funcTag 0, .tree n, .footer .H_RETURN g.funcTag 0], g)
  | .break, g => some (errorIf (g.breakTag = 0) .breakOutside ++ [.header .H_BREAK g.breakTag 0], g)
  | .continue, g => some (errorIf (g.contTag = 0) .continueOutside ++ [.header .H_CONTINUE g.contTag 0], g)
  | .goto name, g => some ([.header .H_GOTO g.funcTag name], g)
  | .switch n t s, g => do
    let swptr := g.table.length
    let (ev, g') ← statement s (g.enterSwitch t)
    some (.header .H_SWITCH g.nextTag (g.nextTag + 1) :: .tree n :: errorIf (¬ IS_INTARITH t) .badType ++ ev ++
      endSwitch g' swptr, g'.leaveSwitch g swptr)
  | .case value, g => caseStatement g value
  | .default, g => some (defaultStatement g)

/-- The name and the body. -/
abbrev Function (h : Host) := Nat × Stmt h

def Statics.enterFunction (g : Statics h) : Statics h := { g with nextTag := g.nextTag + 1, funcTag := g.nextTag }

def functionBody (f : Function h) (g : Statics h) : Option (List (Event h) × Statics h) := do
  let (ev, g') ← statement f.2 g.enterFunction
  some (.header .H_FUNCTION g.nextTag f.1 :: .header .H_FRAME 0 0 :: ev ++ [.footer .H_FUNCTION g'.funcTag f.1], g')

/-- One function after the other. -/
def functions : List (Function h) → Statics h → Option (List (Event h) × Statics h)
  | [], g => some ([], g)
  | f :: fs, g => do
    let (ev1, g1) ← functionBody f g
    let (ev2, g2) ← functions fs g1
    some (ev1 ++ ev2, g2)

end Fuzemsys.Fcc.Body
