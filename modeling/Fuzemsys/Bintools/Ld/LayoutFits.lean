import Mathlib.Order.CompletePartialOrder
import Mathlib.Order.Interval.Set.Disjoint
import Fuzemsys.Lib.Align
import Fuzemsys.Bintools.Ld.Layout

/-!
# When the layout is right

The layout that the linker means lives in an unbounded memory. The linker
computes it modulo 2^16, and its tests for a sum that went round do not see all
of them. The layout is right when the unbounded one fits below 2^16.
-/

open Fuzemsys.Lib

namespace Fuzemsys.Bintools.Ld

variable {st st' : Link} {wild : Byte → Word} {code : Word}

/-! ## The layout that is meant -/

/-- The bytes of all parts of a segment. -/
def total (os : List Object) (i : Seg) : Nat := (os.map fun o => (o.oh.o_size i).toNat).sum

/-- Only the code has a base of its own. -/
def fixedBase (code : Word) (i : Seg) : Option Nat := if i = CODE then some code.toNat else none

/-- The segments that the order names. -/
def orderOf (st : Link) : List Seg := st.segmentorder.filterMap segNumber

/-- The place of each segment of the order in an unbounded memory. -/
def segPlaces (code : Word) (st : Link) : List (Seg × Nat) :=
  places (fixedBase code) st.align.toNat (total st.objects) 0 (orderOf st)

def meantBase (code : Word) (st : Link) : Seg → Nat :=
  placed (fun i => if i = CODE then code.toNat else 0) (segPlaces code st)

/-- Where the part of the object at place `k` starts. -/
def meantPart (code : Word) (st : Link) (k : Nat) (i : Seg) : Nat :=
  meantBase code st i + total (st.objects.take k) i

/-- The base that belongs to a symbol, whose segment may be none of the segments. -/
def meantDefiner (wild : Byte → Word) (code : Word) (st : Link) (s : Symbol) : Nat :=
  let seg := segOf s.type
  if h : seg.toNat < OSEG then
    match s.definedby with
    | some k =>
      if k < st.objects.length then
        if seg.toNat = 0 then 0 else meantPart code st k ⟨seg.toNat, h⟩
      else (wild seg).toNat
    | none => meantBase code st ⟨seg.toNat, h⟩
  else (wild seg).toNat

/-- The symbol table with the linker's own symbols in it. -/
def linkerTable (st : Link) : List Symbol :=
  (insertLinkerSymbols { st with size := fun i => BitVec.ofNat 16 (total st.objects i) }).symhash

/-! ## What the linker starts from -/

/-- Fuzix mode: only the base of the code is set, and the alignment is not 0. -/
structure FuzixStart (code : Word) (st : Link) : Prop where
  ldmode : st.ldmode = .fuzix
  baseset : ∀ i, st.baseset i = decide (i = CODE)
  base : ∀ i, st.base i = if i = CODE then code else 0
  align : 0 < st.align.toNat

/-! ## The claim about the layout, and its condition -/

/-- The addresses from `b` on, `n` of them. -/
def span (b n : Nat) : Set Nat := Set.Ico b (b + n)

def segRange (st : Link) (i : Seg) : Set Nat := span (st.base i).toNat (st.size i).toNat

def partRange (o : Object) (i : Seg) : Set Nat := span (o.base i).toNat (o.oh.o_size i).toNat

structure LaidOut (wild : Byte → Word) (st st' : Link) : Prop where
  disjoint : ∀ m ∈ orderOf st, ∀ n ∈ orderOf st, m ≠ n → Disjoint (segRange st' m) (segRange st' n)
  below : ∀ n ∈ orderOf st, (st'.base n).toNat + (st'.size n).toNat ≤ 65536
  aligned : ∀ n ∈ orderOf st, st.align.toNat ∣ (st'.base n).toNat
  inside : ∀ o ∈ st'.objects, ∀ i ≠ ABSOLUTE, partRange o i ⊆ segRange st' i
  apart : ∀ i ≠ ABSOLUTE, st'.objects.Pairwise fun o o' => Disjoint (partRange o i) (partRange o' i)
  values : ∀ p ∈ (linkerTable st).zip st'.symhash, ¬ unknown p.1.type →
    p.2.value.toNat = (definerBase wild st' p.2).toNat + p.1.value.toNat

/-- The unbounded layout is aligned and stays below 2^16. A part or a segment that would start
at 2^16 is empty, and starts at 0 instead. -/
structure LayoutFits (wild : Byte → Word) (code : Word) (st : Link) : Prop where
  aligned : CODE ∈ orderOf st → st.align.toNat ∣ code.toNat
  fits : ∀ p ∈ segPlaces code st, p.2 + total st.objects p.1 ≤ 65536
  -- Code that is not first in the order starts below what went before it.
  restart : CODE ∈ (orderOf st).tail → (segPlaces code st).Pairwise fun p q =>
    p.1 ≠ q.1 → Disjoint (span p.2 (total st.objects p.1)) (span q.2 (total st.objects q.1))
  parts : ∀ i ≠ ABSOLUTE, ∀ (k : Nat) (o : Object), st.objects[k]? = some o → 0 < (o.oh.o_size i).toNat →
    meantPart code st k i < 65536
  symbols : ∀ s ∈ linkerTable st, ¬ unknown s.type →
    meantDefiner wild code st s % 65536 + s.value.toNat < 65536

end Fuzemsys.Bintools.Ld
