import Fuzemsys.Lib.Run
import Fuzemsys.Fcc.Symbol

/-!
# Scopes

What the parser does to the symbol table: declarations, types, and scopes that are
opened and closed. Beside the table a run keeps which local belongs to which scope,
and from that what a name stands for.
-/

open Fuzemsys.Lib

namespace Fuzemsys.Fcc.SymTab

/-! ## What the parser does -/

/-- The storage classes of declarations. -/
def declClasses : List Word :=
  [S_AUTO, S_REGISTER, S_ARGUMENT, S_LSTATIC, S_STATIC, S_EXTERN, S_EXTDEF, S_TYPEDEF, S_ENUM]

abbrev Names := List (Word × Nat)

/-- An open scope: its mark, the locals it has declared, and what names stood for before it. -/
structure Scope where
  mark : Nat
  locals : Names
  before : Word → Option Nat

/-- The table, the open scopes from the inside out, the locals outside of all scopes, the
file-scope symbols, and the entries that are types, tags and typedefs. -/
structure Scopes where
  tab : Table
  opened : List Scope
  outside : Names
  globals : Names
  others : List Nat

/-! ## What names stand for -/

def lookupName (l : Names) (name : Word) : Option Nat := (l.find? fun e => e.1 = name).map Prod.snd

/-- The live locals, innermost first. -/
def liveLocals (opened : List Scope) (outside : Names) : Names :=
  opened.flatMap Scope.locals ++ outside

def Scopes.live (s : Scopes) : Names := liveLocals s.opened s.outside

def Scopes.inUse (s : Scopes) : List Nat := s.live.map Prod.snd ++ s.globals.map Prod.snd ++ s.others

/-! ## One step -/

/-- What is written to the symbol that a declaration returns. -/
def finishDecl (t : Table) (s : Nat) (init : Bool) (offset : Option Nat) : Table :=
  let sym := t.symtab s
  t.setSym s { sym with
    infonext := if init then sym.infonext ||| INITIALIZED else sym.infonext
    data := offset.getD sym.data }

/-- A new local of the innermost scope. -/
def Scopes.addLocal (s : Scopes) (name : Word) (i : Nat) : Scopes :=
  match s.opened with
  | sc :: rest => { s with opened := { sc with locals := (name, i) :: sc.locals } :: rest }
  | [] => { s with outside := (name, i) :: s.outside }

/-- The bookkeeping of a declaration whose symbol is entry `i`. -/
def Scopes.note (s : Scopes) (name storage : Word) (i : Nat) : Scopes :=
  if storage < S_STATIC then
    if lookupName s.live name = none then s.addLocal name i else s
  else if storage < S_TYPEDEF then
    if lookupName s.globals name = none then { s with globals := (name, i) :: s.globals } else s
  else if i ∈ s.others then s
  else { s with others := i :: s.others }

/-- The table before `main` makes its first type. What lies behind it is arbitrary. -/
def emptyTable (behind : Nat → Symbol) : Table where
  symtab := fun i => if i < MAXSYM then { name := 0, infonext := 0, type := 0, data := 0 } else behind i
  last_sym := 0
  local_top := 0
  idxmem := [0, 1, ELLIPSIS]
  idxptr := 0
  errors := []

/-- What a zeroed entry looks like. -/
def zeroSymbol : Symbol where
  name := 0
  infonext := 0
  type := 0
  data := 0

/-- `main` makes the type of an undeclared function first, so entry 0 is taken. -/
def startTable (behind : Nat → Symbol) : Table :=
  { (emptyTable behind).setSym 0 { name := 0xFFFF, infonext := S_FUNCDEF, type := CINT, data := 1 } with
    last_sym := 1 }

end Fuzemsys.Fcc.SymTab
