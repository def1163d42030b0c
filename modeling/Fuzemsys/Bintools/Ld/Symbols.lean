import Fuzemsys.Bintools.Obj

/-!
# The symbol table of the linker

The static variables of `ld.c` and the routine that merges each definition and
each reference into the one table. Only one symbol of each name ever exists, so
the hash chains are one list.
-/

namespace Fuzemsys.Bintools.Ld

/-! ## Symbols -/

/-- The object that defines a symbol is its place in the list of objects. -/
structure Symbol where
  definedby : Option Nat
  name : Name
  value : Word
  type : Byte
  deriving DecidableEq, Repr

/-- The test for `S_UNKNOWN`. -/
def unknown (type : Byte) : Prop := type &&& S_UNKNOWN ≠ 0

instance (type : Byte) : Decidable (unknown type) := inferInstanceAs (Decidable (_ ≠ _))

/-- The segment number of a type, which need not be the number of a segment. -/
def segOf (type : Byte) : Byte := type &&& S_SEGMENT

/-- What goes to stderr without ending the link. -/
inductive Report where
  | segmentMismatch (name : Name) (want constrained : Byte)
  | multiplyDefined (name : Name)
  deriving DecidableEq, Repr

/-! ## Objects and modes -/

/-- A loaded object. `syment` is the table entry of each of its symbols, by name. -/
structure Object where
  oh : ObjHdr
  syment : List Name
  base : Seg → Word

inductive Mode where
  | reloc
  | rflag
  | absolute
  | fuzix
  deriving DecidableEq, Repr

/-- The static variables. -/
structure Link where
  objects : List Object
  symhash : List Symbol
  base : Seg → Word
  size : Seg → Word
  align : Word
  baseset : Seg → Bool
  ldmode : Mode
  split_id : Bool
  segmentorder : List Char
  arch : Byte
  arch_flags : Word
  obj_flags : Option Byte
  err : Nat
  reports : List Report

/-- The `err |= 2` of a warning. -/
def Link.warn (st : Link) : Link := { st with err := st.err ||| 2 }

def Link.report (st : Link) (r : Report) : Link := { st with reports := st.reports ++ [r] }

/-! ## Finding and merging -/

def findSymbol (table : List Symbol) (name : Name) : Option Symbol :=
  table.find? fun s => s.name = name

/-- The update of the one symbol of a name. -/
def setSymbol (table : List Symbol) (s : Symbol) : List Symbol :=
  table.map fun t => if t.name = s.name then s else t

/-- What `segment_mismatch` decides: the type afterwards, and whether there is a conflict. -/
def segmentMismatch (type type2 : Byte) : Byte × Bool :=
  let seg1 := segOf type
  let seg2 := segOf type2
  if seg1 = seg2 then (type, false)
  else if seg1 = S_ANY then ((type &&& ~~~S_SEGMENT) ||| seg2, false)
  else if seg2 = segByte ABSOLUTE ∨ seg2 = S_ANY then (type, false)
  else (type, true)

/-- The report and the error flag of a conflict over a symbol. -/
def Link.mismatch (st : Link) (s : Symbol) (type2 : Byte) : Link :=
  if (segmentMismatch s.type type2).2 then
    (st.report (.segmentMismatch s.name (segOf type2) (segOf s.type))).warn
  else st

/-- `find_alloc_symbol`, for the object at place `o`. -/
def findAllocSymbol (st : Link) (o : Option Nat) (type : Byte) (id : Name) (value : Word) : Link :=
  match findSymbol st.symhash id with
  | none =>
    let s := { definedby := if unknown type then none else o, name := id, value := value, type := type }
    { st with symhash := s :: st.symhash }
  | some s =>
    if unknown type then
      -- An external reference: at most the segment is learnt.
      let type' := (segmentMismatch s.type type).1
      { st.mismatch s type with symhash := setSymbol st.symhash { s with type := type' } }
    else if unknown s.type then
      let type' := (segmentMismatch s.type type).1 &&& ~~~S_UNKNOWN
      { st.mismatch s type with
        symhash := setSymbol st.symhash { definedby := o, name := s.name, value := value, type := type' } }
    else if segOf (s.type ||| type) ≠ segByte ABSOLUTE ∨ s.value ≠ value then
      -- Reported, but the link goes on and the first definition stays.
      st.report (.multiplyDefined id)
    else st

/-- `insert_internal_symbol`; a segment of -1 is `none`. -/
def insertInternalSymbol (st : Link) (name : String) (seg : Option Seg) (val : Word) : Link :=
  match seg with
  | none => findAllocSymbol st none (S_ANY ||| S_UNKNOWN) (cutName name) 0
  | some seg => findAllocSymbol st none (segByte seg ||| S_PUBLIC) (cutName name) val

/-! ## What a merge leaves alone -/

section Frame

variable (st : Link) (o : Option Nat) (type : Byte) (id : Name) (value : Word)

theorem mismatch_frame (s : Symbol) : ∃ e r, st.mismatch s type = { st with err := e, reports := r } := by
  unfold Link.mismatch
  split
  · exact ⟨_, _, rfl⟩
  · exact ⟨_, _, rfl⟩

theorem findAllocSymbol_frame :
    ∃ t e r, findAllocSymbol st o type id value = { st with symhash := t, err := e, reports := r } := by
  unfold findAllocSymbol
  split
  · exact ⟨_, _, _, rfl⟩
  · next s _ =>
    obtain ⟨e, r, hframe⟩ := mismatch_frame st type s
    rw [hframe]
    split_ifs
    · exact ⟨_, _, _, rfl⟩
    · exact ⟨_, _, _, rfl⟩
    · exact ⟨_, _, _, rfl⟩
    · exact ⟨_, _, _, rfl⟩

/-- The new table depends on the old one only. -/
theorem findAllocSymbol_symhash {st st' : Link} (h : st.symhash = st'.symhash) :
    (findAllocSymbol st o type id value).symhash = (findAllocSymbol st' o type id value).symhash := by
  unfold findAllocSymbol
  rw [h]
  cases findSymbol st'.symhash id with
  | none => rfl
  | some s =>
    simp only
    split_ifs
    · rfl
    · rfl
    · exact h
    · exact h

end Frame

end Fuzemsys.Bintools.Ld
