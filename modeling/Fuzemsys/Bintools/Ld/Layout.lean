import Mathlib.Logic.Function.Basic
import Fuzemsys.Bintools.Ld.Symbols

/-!
# Laying out the segments

`set_segment_bases` adds up the segment sizes of all objects, puts the segments
one after the other in the segment order, and then gives each object its part of
each segment and each symbol its address.
-/

namespace Fuzemsys.Bintools.Ld

/-! ## Total sizes -/

/-- The size loop. The total of segment 0 is never touched. -/
def sumSizes : List Object → (Seg → Word) → Except String (Seg → Word)
  | [], size => .ok size
  | o :: os, size =>
    let size' := fun i => if i = ABSOLUTE then size i else size i + o.oh.o_size i
    if ∃ i, i ≠ ABSOLUTE ∧ size' i < o.oh.o_size i then .error "segment too large"
    else sumSizes os size'

/-! ## Segment order -/

/-- An address rounded up on promoted integers, and cut to 16 bits when it is stored. -/
def roundUp (align base size : Word) : Word :=
  BitVec.ofNat 16 ((base.toNat + size.toNat + align.toNat - 1) / align.toNat * align.toNat)

/-- Segment `a` goes after segment `b`. A base that was set by hand stays. -/
def appendSegment (st : Link) (a b : Seg) : Except String Link :=
  if st.baseset a then .ok st
  else
    let st' := { st with base := Function.update st.base a (roundUp st.align (st.base b) (st.size b)) }
    if st'.base a < st'.base b then .error "image too large" else .ok st'

def segnames : List Char := ['C', 'D', 'B', 'Z', 'X', 'S', 'L', 's', 'b']

/-- The letter's place in `segnames`, from 1. -/
def segNumber (c : Char) : Option Seg :=
  match segnames.findIdx? (· = c) with
  | some k => if h : k + 1 < OSEG then some ⟨k + 1, h⟩ else none
  | none => none

/-- The loop of `order_segments`. There is no `last` before the first letter. -/
def orderSegments : List Char → Option Seg → Link → Except String Link
  | [], _, st => .ok st
  | c :: s, last, st =>
    match segNumber c with
    | none => .error "invalid segment order"
    | some n =>
      match last with
      | some m =>
        match appendSegment st n m with
        | .error e => .error e
        | .ok st' => orderSegments s (some n) st'
      | none => orderSegments s (some n) st

/-! ## Linker symbols -/

/-- The symbols that say where the segments start and end. -/
def linkerSymbols (size : Seg → Word) : List (String × Seg × Word) := [
  ("__code", CODE, 0),
  ("__data", DATA, 0),
  ("__bss", BSS, 0),
  ("__literal", LITERAL, 0),
  ("__end", BSS, size BSS),
  ("__zp", ZP, 0),
  ("__discard", DISCARD, 0),
  ("__common", COMMON, 0),
  ("__buffers", BUFFERS, 0),
  ("__commondata", COMMONDATA, 0),
  ("__code_size", ABSOLUTE, size CODE),
  ("__data_size", ABSOLUTE, size DATA),
  ("__bss_size", ABSOLUTE, size BSS),
  ("__literal_size", ABSOLUTE, size LITERAL),
  ("__zp_size", ABSOLUTE, size ZP),
  ("__discard_size", ABSOLUTE, size DISCARD),
  ("__common_size", ABSOLUTE, size COMMON),
  ("__buffers_size", ABSOLUTE, size BUFFERS),
  ("__commondata_size", ABSOLUTE, size COMMONDATA)
]

/-- The calls of `insert_internal_symbol`, one after the other. -/
def insertLinkerSymbols (st : Link) : Link :=
  (linkerSymbols st.size).foldl (fun st s => insertInternalSymbol st s.1 (some s.2.1) s.2.2) st

/-! ## Parts and symbols -/

/-- The loop that gives each object its base in each segment. -/
def placeObjects : (Seg → Word) → List Object → List Object
  | _, [] => []
  | pos, o :: os =>
    { o with base := fun i => if i = ABSOLUTE then 0 else pos i } ::
      placeObjects (fun i => if i = ABSOLUTE then pos i else pos i + o.oh.o_size i) os

/-- What the base array of the definer holds for a symbol. The number of a segment can lie
past the end of the array; what is read there is `wild`. -/
def definerBase (wild : Byte → Word) (st : Link) (s : Symbol) : Word :=
  let seg := segOf s.type
  if h : seg.toNat < OSEG then
    match s.definedby with
    | some k =>
      match st.objects[k]? with
      | some o => o.base ⟨seg.toNat, h⟩
      | none => wild seg
    | none => st.base ⟨seg.toNat, h⟩
  else wild seg

def relocateSymbol (wild : Byte → Word) (st : Link) (s : Symbol) : Symbol :=
  { s with value := s.value + definerBase wild st s }

/-! ## The whole function -/

/-- Everything up to the linker symbols. -/
def segmentBases (st : Link) : Except String Link :=
  match sumSizes st.objects (fun i => if i = ABSOLUTE then st.size i else 0) with
  | .error e => .error e
  | .ok size =>
    let st := { st with size := size }
    let st :=
      if st.ldmode = .reloc ∧ st.split_id ∧ ¬ st.baseset DATA then
        { st with base := Function.update st.base DATA 0, baseset := Function.update st.baseset DATA true }
      else st
    match orderSegments st.segmentorder none st with
    | .error e => .error e
    | .ok st =>
      if st.ldmode ≠ .rflag then
        -- The second test is made on promoted integers, where the sum does not wrap.
        if st.base BSS < st.base DATA ∨ (st.base BSS).toNat + (st.size BSS).toNat < (st.base BSS).toNat then
          .error "image too large"
        else .ok (insertLinkerSymbols st)
      else .ok st

def setSegmentBases (wild : Byte → Word) (st : Link) : Except String Link :=
  match segmentBases st with
  | .error e => .error e
  | .ok st =>
    let st := { st with objects := placeObjects st.base st.objects }
    .ok { st with symhash := st.symhash.map (relocateSymbol wild st) }

end Fuzemsys.Bintools.Ld
