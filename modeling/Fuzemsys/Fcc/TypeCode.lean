import Fuzemsys.Fcc.Scopes

/-!
# Type codes

The parser of declarators. It puts what it reads on a stack of levels and makes the
types when it unwinds the stack. A run is the sequence of what the parser does; the
types that one `type_name_parse` makes can contain others that are complete before it.
-/

open Fuzemsys.Lib

namespace Fuzemsys.Fcc.SymTab

/-! ## Types -/

def VOID : Word := 0xA0
def S_NONE : Word := S_FREE

def MAX_DECL : Nat := 16

/-- The number of pointers to a type. -/
def PTR (t : Word) : Nat := (t &&& 7).toNat

def IS_STRUCT (t : Word) : Prop := CLASS t = C_STRUCT
def IS_FUNCTION (t : Word) : Prop := CLASS t = C_FUNCTION
def IS_ARRAY (t : Word) : Prop := CLASS t = C_ARRAY

instance (t : Word) : Decidable (IS_STRUCT t) := inferInstanceAs (Decidable (_ = _))
instance (t : Word) : Decidable (IS_FUNCTION t) := inferInstanceAs (Decidable (_ = _))
instance (t : Word) : Decidable (IS_ARRAY t) := inferInstanceAs (Decidable (_ = _))

def indirections (t : Table) : Table := t.error "too many indirections"

/-- The value of `type_addpointer`. -/
def typeAddpointer (type : Word) (ptr : Nat) : Word :=
  if 7 < PTR type + ptr then type else type + BitVec.ofNat 16 ptr

/-- A function turns into a pointer to itself. -/
def functionPointer (type : Word) : Word := if IS_FUNCTION type ∧ PTR type = 0 then 1 ||| type else type

/-- The type that an array turns into, where `elem` is that of its elements. -/
def decayed (elem type : Word) : Word := elem + BitVec.ofNat 16 (PTR type)

def typeCanonical (t : Table) (type : Word) : Word × Table :=
  if IS_ARRAY type then
    let elem := (t.symtab (INFO type)).type
    (functionPointer (decayed elem type), if 7 < PTR elem + PTR type then indirections t else t)
  else (functionPointer type, t)

/-- The type of an argument: `void`, no objects, and no arrays. -/
def argumentType (t : Table) (type : Word) : Word × Table :=
  if type = VOID then (VOID, t)
  else if PTR type = 0 ∧ (IS_STRUCT type ∨ IS_FUNCTION type) then typeCanonical (t.error "cannot pass objects") CINT
  else typeCanonical t type

/-! ## What a declarator says -/

mutual

/-- One level of a declarator, with the pointers to its left. -/
inductive Level where
  | simple (ptr : Nat)
  | array (ptr : Nat) (dim : List Word)
  | function (ptr : Nat) (args : Args)

/-- The arguments of a function, the last one outermost. -/
inductive Args where
  | nil
  | ellipsis (before : Args)
  | type (before : Args) (base : Word) (levels : Levels)

/-- The levels of a declarator, the outermost one last. -/
inductive Levels where
  | nil
  | add (inner : Levels) (level : Level)

end

/-! ## The state of the parser -/

inductive Form where
  | simple
  | array
  | function
  deriving DecidableEq

/-- The storage class of the types that a form makes. -/
def Form.storage : Form → Word
  | .simple => S_NONE
  | .array => S_ARRAY
  | .function => S_FUNCDEF

/-- An entry of the stack of declarators. `list` is what was interned at `idx`. -/
structure Declstack where
  form : Form
  ptr : Nat
  idx : Nat
  list : List Word

/-- An open `type_name_parse`: its base type, its part of the stack from the top down, the
template of arguments while it reads some, and the type once it has one. `spelled` and
`args` are what the source text said so far. -/
structure TypeParse where
  ltop : Nat
  base : Word
  decls : List Declstack
  tplt : Option (List Word)
  type : Option Word
  spelled : Levels
  args : Args

/-- A function or array type that was made, and its code. -/
structure Made where
  storage : Word
  rtype : Word
  list : List Word
  code : Word
  deriving DecidableEq

/-- A declarator that was parsed, and its type. -/
structure Parsed where
  base : Word
  levels : Levels
  type : Word

/-- The table, the open parses from the inside out, the marks of open blocks, and what was
made and parsed. -/
structure Types where
  tab : Table
  parses : List TypeParse
  blocks : List Nat
  made : List Made
  parsed : List Parsed

/-- The whole stack of declarators. -/
def Types.decls (s : Types) : List Declstack := s.parses.flatMap TypeParse.decls

/-! ## The parser -/

/-- One thing that the parser does. -/
inductive TypeOp where
  | beginType (type : Word)
  | simple (ptr : Nat)
  | array (ptr : Nat) (dim : List Word)
  | beginArgs
  | ellipsis
  | beginArgument (type : Word)
  | endArgument (name : Word) (register : Bool) (offset : Nat)
  | endArgs (ptr : Nat)
  | unwind
  | endType
  | arrayWithSize (type size : Word)
  | sizeofString (type len : Word)
  | declare (name storage type : Word) (init : Bool) (offset : Option Nat)
  | struct (name : Word) (isstruct : Bool)
  | fields (tags : List Word)
  | enter
  | leave

/-- A template with its count. An empty one means anything. -/
def argIdx (tplt : List Word) : List Word :=
  let tplt := if tplt = [] then [ELLIPSIS] else tplt
  BitVec.ofNat 16 tplt.length :: tplt

def arrayIdx (dim : List Word) : List Word := BitVec.ofNat 16 dim.length :: dim

/-- `declarator_add` on the stack of the innermost parse. -/
def declaratorAdd (s : Types) (p : TypeParse) (rest : List TypeParse) (d : Declstack) (l : Level) : Option Types :=
  if p.type.isSome ∨ s.decls.length = MAX_DECL then none
  else some { s with parses := { p with decls := d :: p.decls, spelled := .add p.spelled l } :: rest }

/-- One turn of the loop that unwinds the stack. -/
def unwindLevel (t : Table) (type : Word) (d : Declstack) : Except String (Word × Table) :=
  let t := if 7 < PTR type + d.ptr then indirections t else t
  let type := typeAddpointer type d.ptr
  match d.form with
  | .array => makeArray t type d.idx
  | .function => makeFunction t type d.idx
  | .simple => .ok (type, t)

/-- What a turn adds to what was made. -/
def madeBy (type : Word) (d : Declstack) (code : Word) : List Made :=
  match d.form with
  | .simple => []
  | form => [{ storage := form.storage, rtype := typeAddpointer type d.ptr, list := d.list, code := code }]

/-- The loop of `do_type_name_parse`, from the top of the stack down. -/
def unwindLoop (t : Table) (type : Word) (made : List Made) : List Declstack → Except String (Word × Table × List Made)
  | [] => .ok (type, t, made)
  | d :: ds =>
    match unwindLevel t type d with
    | .error e => .error e
    | .ok (code, t) => unwindLoop t code (madeBy type d code ++ made) ds

/-- An argument that has a name is declared. -/
def declareArgument (t : Table) (name type : Word) (register : Bool) (offset : Nat) : Except String Table :=
  if name = 0 then .ok t
  else
    match updateSymbolByName t name (if register then S_REGISTER else S_ARGUMENT) type with
    | .error e => .error e
    | .ok (sym, t) => .ok (t.setSym sym { t.symtab sym with data := offset })

/-- The vector that `array_with_size` looks for: that of the array with another first size. -/
def resized (t : Table) (type size : Word) : List Word :=
  let idx := (t.symtab (INFO type)).data
  let x := t.cell idx 0 :: size :: (List.range 7).map fun k => t.cell idx (k + 2)
  x.take ((t.cell idx 0).toNat + 1)

/-- One step. Without a state the parser stopped with a fatal error, or does not come here. -/
def stepTypes (s : Types) : TypeOp → Option Types
  | .beginType type =>
    if s.parses.length = 7 then none
    else
      some { s with
        parses := { ltop := markLocalSymbols s.tab, base := type, decls := [], tplt := none, type := none,
                    spelled := .nil, args := .nil } :: s.parses }
  | .simple ptr =>
    match s.parses with
    | p :: rest =>
      declaratorAdd s p rest { form := .simple, ptr := ptr, idx := 0, list := [] } (.simple ptr)
    | [] => none
  | .array ptr dim =>
    match s.parses with
    | p :: rest =>
      let tab := if 8 < dim.length then s.tab.error "too many dimensions" else s.tab
      let dim := dim.take 8
      match symFindIdx tab S_ARRAY (arrayIdx dim) with
      | .error _ => none
      | .ok (idx, t) =>
        declaratorAdd { s with tab := t } p rest
          { form := .array, ptr := ptr, idx := idx, list := arrayIdx dim } (.array ptr dim)
    | [] => none
  | .beginArgs =>
    match s.parses with
    | p :: rest => some { s with parses := { p with tplt := some [], args := .nil } :: rest }
    | [] => none
  | .ellipsis =>
    match s.parses with
    | p :: rest =>
      match p.tplt with
      | some tplt =>
        if tplt.length = 32 then none
        else
          some { s with parses := { p with tplt := some (tplt ++ [ELLIPSIS]), args := .ellipsis p.args } :: rest }
      | none => none
    | [] => none
  | .beginArgument type =>
    match s.parses with
    | p :: rest =>
      match p.tplt with
      | some tplt =>
        if tplt.length = 32 ∨ s.parses.length = 7 then none
        else
          some { s with
            parses := { ltop := markLocalSymbols s.tab, base := type, decls := [], tplt := none, type := none,
                        spelled := .nil, args := .nil } :: p :: rest }
      | none => none
    | [] => none
  | .endArgument name register offset =>
    match s.parses with
    | p :: q :: rest =>
      match p.type, q.tplt with
      | some type, some tplt =>
        if tplt.length = 32 then none
        else
          let r := argumentType (popLocalSymbols s.tab p.ltop) type
          let name := if type = VOID then 0 else name
          match declareArgument r.2 name r.1 register offset with
          | .error _ => none
          | .ok t =>
            some { s with
              tab := t
              parses := { q with tplt := some (tplt ++ [r.1]), args := .type q.args p.base p.spelled } :: rest }
      | _, _ => none
    | _ => none
  | .endArgs ptr =>
    match s.parses with
    | p :: rest =>
      match p.tplt with
      | some tplt =>
        match symFindIdx s.tab S_FUNCDEF (argIdx tplt) with
        | .error _ => none
        | .ok (idx, t) =>
          declaratorAdd { s with tab := t } { p with tplt := none } rest
            { form := .function, ptr := ptr, idx := idx, list := argIdx tplt } (.function ptr p.args)
      | none => none
    | [] => none
  | .unwind =>
    match s.parses with
    | p :: rest =>
      if p.type.isSome then none
      else
        match unwindLoop s.tab p.base s.made p.decls with
        | .error _ => none
        | .ok (type, t, made) =>
          some { s with
            tab := t
            parses := { p with decls := [], type := some type } :: rest
            made := made
            parsed := { base := p.base, levels := p.spelled, type := type } :: s.parsed }
    | [] => none
  | .endType =>
    match s.parses with
    | p :: rest => some { s with tab := popLocalSymbols s.tab p.ltop, parses := rest }
    | [] => none
  | .arrayWithSize type size =>
    match symFindIdx s.tab S_ARRAY (resized s.tab type size) with
    | .error _ => none
    | .ok (idx, t) =>
      let elem := (t.symtab (INFO type)).type
      match makeArray t elem idx with
      | .error _ => none
      | .ok (code, t) =>
        some { s with
          tab := t
          made := { storage := S_ARRAY, rtype := elem, list := resized s.tab type size, code := code } :: s.made }
  | .sizeofString type len =>
    -- The vector of a string is a new one, even where there is an equal one.
    match idxCopy s.tab [1, len] with
    | .error _ => none
    | .ok (idx, t) =>
      match makeArray t type idx with
      | .error _ => none
      | .ok (_, t) => some { s with tab := t }
  | .declare name storage type init offset =>
    match updateSymbolByName s.tab name storage type with
    | .error _ => none
    | .ok (i, t) => some { s with tab := finishDecl t i init offset }
  | .struct name isstruct =>
    match updateStruct s.tab name isstruct with
    | .error _ => none
    | .ok (_, t) => some { s with tab := t }
  | .fields tags =>
    match idxCopy s.tab tags with
    | .error _ => none
    | .ok (_, t) => some { s with tab := t }
  | .enter => some { s with blocks := markLocalSymbols s.tab :: s.blocks }
  | .leave =>
    match s.blocks with
    | top :: blocks => some { s with tab := popLocalSymbols s.tab top, blocks := blocks }
    | [] => none

def typeStep (s : Option Types) (op : TypeOp) : Option Types := s.bind fun s => stepTypes s op

/-! ## The law of type codes, and its condition -/

/-- Types are equal just where their codes are, and a declarator that is repeated gets its
type again. -/
structure CodeLaw (s : Types) : Prop where
  canonical : ∀ m ∈ s.made, ∀ m' ∈ s.made, m.storage = m'.storage →
    (m.code = m'.code ↔ m.rtype = m'.rtype ∧ m.list = m'.list)
  repeated : ∀ d ∈ s.parsed, ∀ d' ∈ s.parsed, d.base = d'.base → d.levels = d'.levels → d.type = d'.type

/-- The type of an array is that of an entry for arrays. -/
def ArrayEntry (t : Table) (type : Word) : Prop :=
  INFO type < t.last_sym ∧ S_STORAGE (t.symtab (INFO type)).infonext = S_ARRAY

instance (t : Table) (type : Word) : Decidable (ArrayEntry t type) := inferInstanceAs (Decidable (_ ∧ _))

/-- The entry `i` is a type of the class that has the vector. -/
def HasIdx (t : Table) (storage : Word) (idx : List Word) (i : Nat) : Prop :=
  i < t.last_sym ∧ S_STORAGE (t.symtab i).infonext = storage ∧
    (t.idxmem.drop (t.symtab i).data).take idx.length = idx

/-- A level on the stack waits with the vector. -/
def Waits (s : Types) (storage : Word) (idx : List Word) : Prop :=
  ∃ d ∈ s.decls, d.form.storage = storage ∧ d.list = idx

/-- Some type has the vector, or it does not wait on the stack. -/
def InternGood (s : Types) (storage : Word) (idx : List Word) : Prop :=
  (∃ i, HasIdx s.tab storage idx i) ∨ ¬ Waits s storage idx

def TypeGood (s : Types) : TypeOp → Prop
  | .beginType type => IS_ARRAY type → ArrayEntry s.tab type
  | .beginArgument type => IS_ARRAY type → ArrayEntry s.tab type
  | .array _ dim => dim.length ≤ 7 ∧ InternGood s S_ARRAY (arrayIdx dim)
  | .endArgs _ => ∀ p rest tplt, s.parses = p :: rest → p.tplt = some tplt → InternGood s S_FUNCDEF (argIdx tplt)
  | .arrayWithSize type size => ArrayEntry s.tab type ∧ InternGood s S_ARRAY (resized s.tab type size)
  | .sizeofString _ len =>
    (∃ i, HasIdx s.tab S_ARRAY [1, len] i ∧ ∀ j < i, s.tab.local_top ≤ j → (s.tab.symtab j).infonext ≠ S_FREE) ∨
      (¬ (∃ i, HasIdx s.tab S_ARRAY [1, len] i) ∧ ¬ Waits s S_ARRAY [1, len])
  | .declare _ storage _ _ _ => storage ∈ S_NONE :: declClasses
  | _ => True

/-- A fatal error leaves nothing to say. -/
def CodeLawAt (o : Option Types) (op : TypeOp) : Prop := ∀ s, typeStep o op = some s → CodeLaw s

def TypeGoodAt (o : Option Types) (op : TypeOp) : Prop := ∀ s, o = some s → TypeGood s op

/-- The compiler starts with the type of an undeclared function. -/
def startTypes (behind : Nat → Symbol) : Types where
  tab := startTable behind
  parses := []
  blocks := []
  made := []
  parsed := []

end Fuzemsys.Fcc.SymTab
