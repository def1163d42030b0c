import Mathlib.Data.BitVec
import Mathlib.Logic.Function.Basic

/-!
# The symbol table

Locals, globals, types, prototypes and typedefs share one array. Pointers into it
are indices, and an index from `MAXSYM` on is memory behind the array. The little
vectors that types point to lie in a pool that only grows.
-/

namespace Fuzemsys.Fcc.SymTab

abbrev Word := BitVec 16

def MAXSYM : Nat := 768
def IDX_SIZE : Nat := 2560

def S_FREE : Word := 0x0000
def S_AUTO : Word := 0x1000
def S_REGISTER : Word := 0x2000
def S_ARGUMENT : Word := 0x3000
def S_LSTATIC : Word := 0x4000
def S_STATIC : Word := 0x5000
def S_EXTERN : Word := 0x6000
def S_EXTDEF : Word := 0x7000
def S_TYPEDEF : Word := 0x8000
def S_STRUCT : Word := 0x9000
def S_UNION : Word := 0xA000
def S_ARRAY : Word := 0xB000
def S_FUNCDEF : Word := 0xC000
def S_ENUM : Word := 0xE000

def INITIALIZED : Word := 0x0800

def S_STORAGE (x : Word) : Word := x &&& 0xF000
def S_INDEX (x : Word) : Word := x &&& 0x07FF

def CINT : Word := 0x10
def ELLIPSIS : Word := 0xB0

def C_STRUCT : Word := 0x4000
def C_FUNCTION : Word := 0x8000
def C_ARRAY : Word := 0xC000
def C_ANY : Word := 0xFFFF

def CLASS (t : Word) : Word := t &&& 0xC000
def INFO (t : Word) : Nat := ((t >>> 3) &&& 0x3FF).toNat

/-- A symbol. `data` is a pointer into the pool (0 is NULL) or the offset of a local. -/
structure Symbol where
  name : Word
  infonext : Word
  type : Word
  data : Nat
  deriving DecidableEq, Repr

/-- The table, one past the last used entry, the top of the locals, the pool, and the
errors that were printed. Cell 0 of the pool is there for NULL. -/
structure Table where
  symtab : Nat → Symbol
  last_sym : Nat
  local_top : Nat
  idxmem : List Word
  idxptr : Nat
  errors : List String

def Table.error (t : Table) (msg : String) : Table := { t with errors := t.errors ++ [msg] }

def Table.setSym (t : Table) (s : Nat) (sym : Symbol) : Table :=
  { t with symtab := Function.update t.symtab s sym }

/-! ## Searching by name -/

/-- The loop of `find_symbol`, down from below `s`. -/
def findLoop (symtab : Nat → Symbol) (name : Word) (global : Bool) : Nat → Option Nat → Option Nat
  | 0, gmatch => gmatch
  | s + 1, gmatch =>
    if (symtab s).name = name ∧ (symtab s).infonext < S_TYPEDEF then
      if (symtab s).infonext < S_STATIC then
        if !global then some s else findLoop symtab name global s gmatch
      else findLoop symtab name global s (some s)
    else findLoop symtab name global s gmatch

def findSymbol (t : Table) (name : Word) (global : Bool) : Option Nat :=
  findLoop t.symtab name global t.last_sym none

/-- The same for one storage class. -/
def findClassLoop (symtab : Nat → Symbol) (name cls : Word) : Nat → Option Nat → Option Nat
  | 0, gmatch => gmatch
  | s + 1, gmatch =>
    if (symtab s).name = name ∧ S_STORAGE (symtab s).infonext = cls then
      if (symtab s).infonext < S_STATIC then some s
      else findClassLoop symtab name cls s (some s)
    else findClassLoop symtab name cls s gmatch

def findSymbolByClass (t : Table) (name cls : Word) : Option Nat :=
  findClassLoop t.symtab name cls t.last_sym none

/-! ## Locals -/

/-- The loop of `pop_local_symbols`: each local above `top` is freed. -/
def popLocalSymbols (t : Table) (top : Nat) : Table :=
  { t with
    symtab := fun s =>
      if top < s ∧ s < t.last_sym ∧ S_STORAGE (t.symtab s).infonext < S_STATIC then
        { t.symtab s with infonext := S_FREE, name := 0 }
      else t.symtab s
    local_top := top }

def markLocalSymbols (t : Table) : Nat := t.local_top

/-- The search of `alloc_symbol` through `n` entries from `s` on. -/
def allocLoop (symtab : Nat → Symbol) : Nat → Nat → Option Nat
  | 0, _ => none
  | n + 1, s => if (symtab s).infonext = S_FREE then some s else allocLoop symtab n (s + 1)

/-- `alloc_symbol`. The bound of the source lets the entry behind the last one be looked at. -/
def allocSymbol (t : Table) (name : Word) (lcl : Bool) : Except String (Nat × Table) :=
  match allocLoop t.symtab (MAXSYM + 1 - t.local_top) t.local_top with
  | none => .error "too many symbols"
  | some s =>
    .ok (s, { t.setSym s { t.symtab s with name := name, data := 0 } with
      local_top := if lcl ∧ t.local_top < s then s else t.local_top
      last_sym := if t.last_sym < s + 1 then s + 1 else t.last_sym })

/-! ## Types of arrays -/

/-- Cell `k` behind a pointer into the pool. -/
def Table.cell (t : Table) (p k : Nat) : Word := (t.idxmem.drop (p + k)).headD 0

/-- `memcmp` of whole cells. -/
def sameCells (t : Table) (p q : Nat) : Nat → Bool
  | 0 => true
  | n + 1 => t.cell p n == t.cell q n && sameCells t p q n

/-- `array_compatible`. The length of its memcmp takes in the low byte of one cell too many. -/
def arrayCompatible (t : Table) (t1 t2 : Word) : Word × Table :=
  let i1 := (t.symtab (INFO t1)).data
  let i2 := (t.symtab (INFO t2)).data
  let n := (t.cell i1 0).toNat
  let differ := t.cell i1 0 ≠ t.cell i2 0 ∨
    (1 < n ∧ ¬ (sameCells t (i1 + 2) (i2 + 2) (n - 1) = true ∧
      t.cell (i1 + 2) (n - 1) &&& 0xFF = t.cell (i2 + 2) (n - 1) &&& 0xFF))
  let t := if differ then t.error "type mismatch" else t
  (if t.cell i1 1 = 0 then t2 else t1, t)

/-! ## Updating -/

/-- The end of `update_symbol`: a new or reserved symbol is filled in. -/
def fillSymbol (t : Table) (s : Nat) (storage type : Word) : Table :=
  t.setSym s { t.symtab s with type := type, infonext := storage, data := 0 }

/-- The type check of a symbol that is declared again. -/
def retype (t : Table) (s : Nat) (type : Word) : Table :=
  if (t.symtab s).type ≠ type then
    if CLASS type = C_ARRAY ∧ CLASS (t.symtab s).type = C_ARRAY then
      let r := arrayCompatible t type (t.symtab s).type
      r.2.setSym s { r.2.symtab s with type := r.1 }
    else t.error "type mismatch"
  else t

/-- The storage check of a symbol that is declared again. -/
def restore (t : Table) (s : Nat) (storage : Word) : Table :=
  let symst := S_STORAGE (t.symtab s).infonext
  if symst = storage then t
  else if symst = S_EXTERN ∧ storage = S_EXTDEF then
    t.setSym s { t.symtab s with infonext := S_INDEX (t.symtab s).infonext ||| S_EXTDEF }
  else if symst = S_EXTDEF ∧ storage = S_EXTERN then t
  else t.error "storage class mismatch"

def updateSymbol (t : Table) (sym : Option Nat) (name storage type : Word) : Except String (Nat × Table) :=
  match sym with
  | some s =>
    if (t.symtab s).type ≠ C_ANY then
      if type = C_ANY then .ok (s, t)
      else
        let symst := S_STORAGE (t.symtab s).infonext
        if S_TYPEDEF < symst then .ok (s, fillSymbol (t.error "invalid name") s storage type)
        else if symst < S_STATIC ∨ ¬ storage < S_STATIC then .ok (s, restore (retype t s type) s storage)
        else .ok (s, fillSymbol t s storage type)
    else .ok (s, fillSymbol t s storage type)
  | none =>
    match allocSymbol t name (storage < S_STATIC) with
    | .error e => .error e
    | .ok (s, t) => .ok (s, fillSymbol t s storage type)

/-- What `update_symbol_by_name` finds for a name. -/
def findForUpdate (t : Table) (name storage : Word) : Option Nat :=
  let global : Bool := ¬ storage < S_STATIC
  let sym := if ¬ storage < S_TYPEDEF then findSymbolByClass t name storage else findSymbol t name global
  match sym with
  | some s => if !global && !decide ((t.symtab s).infonext < S_STATIC) then none else some s
  | none => none

def updateSymbolByName (t : Table) (name storage type : Word) : Except String (Nat × Table) :=
  let sym := findForUpdate t name storage
  let t := if sym.isSome ∧ storage < S_STATIC then t.error "duplicate name" else t
  updateSymbol t sym name storage type

/-! ## Types -/

def doTypeMatchLoop (symtab : Nat → Symbol) (st rtype : Word) (idx : Nat) : Nat → Nat → Option Nat
  | 0, _ => none
  | n + 1, s =>
    if S_STORAGE (symtab s).infonext = st ∧ (symtab s).type = rtype ∧ (symtab s).data = idx then some s
    else doTypeMatchLoop symtab st rtype idx n (s + 1)

/-- `do_type_match`: the entry of a type, made when there is none. -/
def doTypeMatch (t : Table) (st rtype : Word) (idx : Nat) : Except String (Nat × Table) :=
  match doTypeMatchLoop t.symtab st rtype idx t.last_sym 0 with
  | some s => .ok (s, t)
  | none =>
    match allocSymbol t 0xFFFF false with
    | .error e => .error e
    | .ok (s, t) => .ok (s, t.setSym s { t.symtab s with infonext := st, data := idx, type := rtype })

def symFindIdxLoop (t : Table) (storage : Word) (idx : List Word) : Nat → Nat → Option Nat
  | 0, _ => none
  | n + 1, s =>
    if S_STORAGE (t.symtab s).infonext = storage ∧ (t.idxmem.drop (t.symtab s).data).take idx.length = idx then
      some (t.symtab s).data
    else symFindIdxLoop t storage idx n (s + 1)

/-- `idx_copy`: the pool grows by a copy. -/
def idxCopy (t : Table) (idx : List Word) : Except String (Nat × Table) :=
  if IDX_SIZE ≤ t.idxptr + idx.length then .error "out of index memory"
  else .ok (t.idxmem.length, { t with idxmem := t.idxmem ++ idx, idxptr := t.idxptr + idx.length })

/-- `sym_find_idx`: the vector of some symbol of the class, or a new copy. -/
def symFindIdx (t : Table) (storage : Word) (idx : List Word) : Except String (Nat × Table) :=
  match symFindIdxLoop t storage idx t.last_sym 0 with
  | some p => .ok (p, t)
  | none => idxCopy t idx

def makeFunction (t : Table) (type : Word) (idx : Nat) : Except String (Word × Table) :=
  match doTypeMatch t S_FUNCDEF type idx with
  | .error e => .error e
  | .ok (s, t) => .ok (C_FUNCTION ||| (BitVec.ofNat 16 s <<< 3), t)

def makeArray (t : Table) (type : Word) (idx : Nat) : Except String (Word × Table) :=
  match doTypeMatch t S_ARRAY type idx with
  | .error e => .error e
  | .ok (s, t) => .ok (C_ARRAY ||| (BitVec.ofNat 16 s <<< 3) ||| t.cell idx 0, t)

/-! ## Structs -/

def findStructLoop (symtab : Nat → Symbol) (name : Word) : Nat → Nat → Option Nat
  | 0, _ => none
  | n + 1, s =>
    if (symtab s).name = name ∧
        (S_STORAGE (symtab s).infonext = S_STRUCT ∨ S_STORAGE (symtab s).infonext = S_UNION) then some s
    else findStructLoop symtab name n (s + 1)

def findStruct (t : Table) (name : Word) : Option Nat :=
  if name = 0 then none else findStructLoop t.symtab name t.last_sym 0

def updateStruct (t : Table) (name : Word) (isstruct : Bool) : Except String (Nat × Table) :=
  let st := if isstruct then S_STRUCT else S_UNION
  match findStruct t name with
  | none =>
    match allocSymbol t name false with
    | .error e => .error e
    | .ok (s, t) => .ok (s, t.setSym s { t.symtab s with infonext := st, data := 0 })
  | some s =>
    .ok (s, if S_STORAGE (t.symtab s).infonext ≠ st then t.error "declared both union and struct" else t)

end Fuzemsys.Fcc.SymTab
