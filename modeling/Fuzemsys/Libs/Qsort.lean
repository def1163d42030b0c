import Mathlib.Data.BitVec
import Fuzemsys.Lib.Rearranged

/-!
# qsort

The three sorts of the source are one text for three kinds of element. An element is its
bytes, and `none` stands for an access outside the array or for fuel that ran out.
-/

namespace Fuzemsys.Libs.Qsort

open Fuzemsys.Lib

abbrev Byte := BitVec 8
abbrev Elem := List Byte

/-- What the compiler makes of `int` and of addresses: 16 bits or 32. -/
structure Target where
  wide : Bool
  bigEndian : Bool
  deriving DecidableEq, Repr

def Target.bits (t : Target) : Nat := if t.wide then 32 else 16

def toInt (t : Target) (x : Int) : Int := x.bmod (2 ^ t.bits)

/-- The elements by index. Those of the array are at 0 to `num - 1`. -/
abbrev Records := Int → Elem

abbrev Cmp := Elem → Elem → Int

section
variable (t : Target) (size num : Nat)

/-- The element whose bytes start at `base + size * k`. -/
def slot (k : Int) : Option Int :=
  let offset := size * k % 2 ^ t.bits
  if offset % size = 0 ∧ offset / size < num then some (offset / size) else none

def get (a : Records) (k : Int) : Option Elem := (slot t size num k).map a

def put (a : Records) (k : Int) (e : Elem) : Option Records :=
  (slot t size num k).map fun n => Function.update a n e

variable (cmp : Cmp) (seen : Elem → Elem)

/-- `while (cmp(base + j, p) > 0) --j`. The pivot is compared as `seen`. -/
def scanDown : Nat → Records → Elem → Int → Option Int
  | 0, _, _, _ => none
  | fuel + 1, a, p, j => do
    let e ← get t size num a j
    if cmp e (seen p) > 0 then scanDown fuel a p (toInt t (j - 1)) else some j

/-- `while (i < j && cmp(base + i, p) <= 0) ++i`. -/
def scanUp : Nat → Records → Elem → Int → Int → Option Int
  | 0, _, _, _, _ => none
  | fuel + 1, a, p, i, j =>
    if i < j then do
      let e ← get t size num a i
      if cmp e (seen p) ≤ 0 then scanUp fuel a p (toInt t (i + 1)) j else some i
    else some i

/-- The hole at `i` is filled from the right, the one this leaves at `j` from the left. -/
def fillHoles (fuel : Nat) (a : Records) (p : Elem) (i j : Int) : Option (Records × Int × Int) := do
  let j ← scanDown t size num cmp seen fuel a p j
  let a ← put t size num a i (← get t size num a j)
  let i ← scanUp t size num cmp seen fuel a p i j
  let a ← put t size num a j (← get t size num a i)
  return (a, i, j)

def partLoop : Nat → Records → Elem → Int → Int → Option (Records × Int)
  | 0, _, _, _, _ => none
  | fuel + 1, a, p, i, j =>
    if i < j then do
      let (a, i, j) ← fillHoles t size num cmp seen fuel a p i j
      partLoop fuel a p i j
    else some (a, i)

/-- `(i+j)>>1`. -/
def PIVOT (i j : Int) : Int := toInt t (i + j) >>> (1 : Nat)

/-- The body of the outer loop up to the recursion: the array, and where the pivot came to stand. -/
def partition (fuel : Nat) (a : Records) (lo hi : Int) : Option (Records × Int) := do
  let mid := PIVOT t lo hi
  let p ← get t size num a mid
  let a ← put t size num a mid (← get t size num a lo)
  let a ← put t size num a lo p
  let (a, i) ← partLoop t size num cmp seen fuel a p lo hi
  let a ← put t size num a i p
  return (a, i)

def sort : Nat → Records → Int → Int → Option Records
  | 0, _, _, _ => none
  | fuel + 1, a, lo, hi =>
    if hi > lo then do
      let (a, i) ← partition t size num cmp seen fuel a lo hi
      if toInt t (i - lo) < toInt t (hi - i) then
        let a ← sort fuel a lo (toInt t (i - 1))
        sort fuel a (toInt t (i + 1)) hi
      else
        let a ← sort fuel a (toInt t (i + 1)) hi
        sort fuel a lo (toInt t (i - 1))
    else some a

end

/-! ## The three kinds -/

/-- The bytes at the address of an `int` that holds this `short`. -/
def heldInInt (t : Target) (p : Elem) : Elem :=
  if t.wide && t.bigEndian then List.replicate 2 (if (p.headD 0).msb then 0xff else 0) else p

def _wqsort (t : Target) (num : Nat) (cmp : Cmp) := sort t 2 num cmp (heldInInt t)

def _lqsort (t : Target) (num : Nat) (cmp : Cmp) := sort t 4 num cmp id

def _nqsort (t : Target) (num size : Nat) (cmp : Cmp) := sort t size num cmp id

/-- `_qbuf` is 0 whenever a call starts. -/
def qsort (t : Target) (fuel : Nat) (a : Records) (num size : Nat) (cmp : Cmp) : Option Records :=
  if size > 128 then some a
  else
    let hi := toInt t (num - 1)
    if size = 2 then _wqsort t num cmp fuel a 0 hi
    else if size = 4 then _lqsort t num cmp fuel a 0 hi
    else _nqsort t num size cmp fuel a 0 hi

/-! ## What it is for -/

/-- `num` elements of `size` bytes that fit into the address space. -/
structure IsArray (t : Target) (a : Records) (num size : Nat) : Prop where
  num_fits : num < 2 ^ t.bits
  bytes_fit : size * num < 2 ^ t.bits
  sized : ∀ k : Int, 0 ≤ k → k < num → (a k).length = size

def notAbove (cmp : Cmp) (x y : Elem) : Prop := cmp x y ≤ 0

instance (cmp : Cmp) (x y : Elem) : Decidable (notAbove cmp x y) :=
  inferInstanceAs (Decidable (cmp x y ≤ 0))

structure TotalPreorder (cmp : Cmp) : Prop where
  total : ∀ x y, notAbove cmp x y ∨ notAbove cmp y x
  trans : ∀ x y z, notAbove cmp x y → notAbove cmp y z → notAbove cmp x z

/-- With enough fuel the call ends inside the array, which then has its elements in order. -/
def Sorts (t : Target) (a : Records) (num size : Nat) (cmp : Cmp) : Prop :=
  ∃ enough, ∀ fuel, enough ≤ fuel → ∃ b, qsort t fuel a num size cmp = some b ∧
    Rearranged 0 (num - 1) a b ∧ InOrder (notAbove cmp) 0 (num - 1) b

/-- The sums of two indices fit `int`, or the bits lost above are no address bits. -/
def PivotInside (t : Target) (num size : Nat) : Prop :=
  num < 2 ^ (t.bits - 1) ∧ (2 ∣ size ∨ num ≤ 2 ^ (t.bits - 2) + 1)

end Fuzemsys.Libs.Qsort
