import Mathlib.Data.List.Basic

/-!
# The allocator

The free blocks are a ring in the order of their addresses. Each block is a header and what follows it, and an
address counts headers: memory is a header at each address.
-/

namespace Fuzemsys.Libs.Malloc

structure Memh where
  next : Nat
  size : Nat

/-- The first block of the ring, below all memory there is to hand out. -/
def mroot : Nat := 0

structure Heap where
  mem : Nat → Memh
  /-- `__mfreeptr`. -/
  freeptr : Nat
  /-- The end of memory. -/
  brk : Nat

/-- The bytes of a header, and the number of values of a `size_t`. -/
structure Target where
  memh : Nat
  word : Nat
  memh_pos : 0 < memh
  memh_fits : 2 * memh ≤ word

namespace Heap

variable (h : Heap)

def next (p : Nat) : Nat := (h.mem p).next

def size (p : Nat) : Nat := (h.mem p).size

def setNext (p q : Nat) : Heap := { h with mem := fun a => if a = p then ⟨q, h.size p⟩ else h.mem a }

def setSize (p : Nat) (n : Nat) : Heap := { h with mem := fun a => if a = p then ⟨h.next p, n⟩ else h.mem a }

/-! ## Freeing -/

/-- The block is between this one and the next of the ring. -/
def Between (mh p : Nat) : Prop :=
  (p < mh ∧ mh < h.next p) ∨ (h.next p ≤ p ∧ (p < mh ∨ mh < h.next p))

instance (mh p : Nat) : Decidable (h.Between mh p) := inferInstanceAs (Decidable (_ ∨ _))

/-- The free block that is just before this one. It is `none` when the fuel runs out. -/
def before (mh : Nat) : Nat → Nat → Option Nat
  | 0, _ => none
  | fuel + 1, p => if h.Between mh p then some p else before mh fuel (h.next p)

/-- Fix up, and if we can, merge forward. -/
def forward (mh p : Nat) : Heap :=
  if mh + h.size mh = h.next p then
    (h.setSize mh (h.size mh + h.size (h.next p))).setNext mh (h.next (h.next p))
  else h.setNext mh (h.next p)

/-- Ditto backwards. -/
def backward (mh p : Nat) : Heap :=
  if p + h.size p = mh then (h.setSize p (h.size p + h.size mh)).setNext p (h.next mh) else h.setNext p mh

def link (mh p : Nat) : Heap := { (h.forward mh p).backward mh p with freeptr := p }

/-- `free` of the block with this header. -/
def free (fuel : Nat) (mh : Nat) : Option Heap := (h.before mh fuel h.freeptr).map (h.link mh)

/-! ## Allocating -/

variable (t : Target)

/-- How many headers `brkmore` asks for. -/
def more (nb : Nat) : Nat := max nb (512 / t.memh)

/-- Memory is had from the end of memory. The system may refuse. -/
def brkmore (fuel : Nat) (agrees : Bool) (nb : Nat) : Option (Option Heap) :=
  if (t.memh * h.brk + t.memh * more t nb) % t.word < t.memh * h.brk ∨ agrees = false then some none
  else (({ h with brk := h.brk + more t nb }.setSize h.brk (more t nb)).free fuel h.brk).map some

/-- A hole is unlinked, or its end is handed out. -/
def hand (nblocks : Nat) (prev p : Nat) : Heap × Nat :=
  if h.size p = nblocks then ({ h.setNext prev (h.next p) with freeptr := prev }, p)
  else
    let rest := h.size p - nblocks
    ({ (h.setSize p rest).setSize (p + rest) nblocks with freeptr := prev }, p + rest)

/-- The search of `malloc`. The header of the block is returned. -/
def search (agrees : Bool) (nblocks : Nat) : Nat → Heap → Nat → Nat → Option (Heap × Option Nat)
  | 0, _, _, _ => none
  | fuel + 1, h, prev, p =>
    if nblocks ≤ h.size p then some ((h.hand nblocks prev p).1, some (h.hand nblocks prev p).2)
    else if p = h.freeptr then
      match h.brkmore t fuel agrees nblocks with
      | none => none
      | some none => some (h, none)
      | some (some h) => search agrees nblocks fuel h h.freeptr (h.next h.freeptr)
    else search agrees nblocks fuel h p (h.next p)

/-- The size in headers with that of the header itself, before the division. -/
def rounded (size : Nat) : Nat := (size + t.memh + t.memh - 1) % t.word

def malloc (fuel : Nat) (agrees : Bool) (size : Nat) : Option (Heap × Option Nat) :=
  if rounded t size < size then some (h, none)
  else search t agrees (rounded t size / t.memh) fuel h h.freeptr (h.next h.freeptr)

end Heap

/-! ## Runs -/

/-- The allocator, and the blocks handed out: the header of each, and the bytes that it was asked for. -/
structure Session where
  heap : Heap
  live : List (Nat × Nat)

inductive Call where
  /-- The system agrees to give memory, or not. -/
  | malloc (size : Nat) (agrees : Bool)
  | free (p : Nat)
  /-- The program writes into its memory. -/
  | store (a : Nat) (v : Memh)

namespace Session

variable (x : Session)

def call (tg : Target) (fuel : Nat) : Call → Option (Session × Option Nat)
  | .malloc size agrees =>
    (x.heap.malloc tg fuel agrees size).map fun r =>
      match r.2 with
      | none => (⟨r.1, x.live⟩, none)
      | some p => (⟨r.1, (p, size) :: x.live⟩, some p)
  | .free p => (x.heap.free fuel p).map fun h => (⟨h, x.live.filter (·.1 ≠ p)⟩, none)
  | .store a v => some (⟨{ x.heap with mem := fun b => if b = a then v else x.heap.mem b }, x.live⟩, none)

/-- The sizes are values of a `size_t`, the block freed is live, and a store is inside a live block. -/
def Permits (tg : Target) : Call → Prop
  | .malloc size _ => size < tg.word
  | .free p => ∃ b ∈ x.live, b.1 = p
  | .store a _ => ∃ b ∈ x.live, b.1 < a ∧ a < b.1 + x.heap.size b.1

/-- The call returns, if it is given the time. -/
def Returns (tg : Target) (c : Call) (y : Session) (r : Option Nat) : Prop :=
  ∃ least, ∀ fuel, least ≤ fuel → x.call tg fuel c = some (y, r)

/-- Nothing was handed out yet, and memory ends at the base. -/
def start (base : Nat) (mem : Nat → Memh) : Session where
  heap := ⟨fun a => if a = mroot then ⟨mroot, 0⟩ else mem a, mroot, base⟩
  live := []

end Session

inductive Run (tg : Target) (base : Nat) (mem : Nat → Memh) : Session → Prop
  | start : Run tg base mem (.start base mem)
  | step {x y : Session} {c : Call} {r : Option Nat} :
      Run tg base mem x → x.Permits tg c → x.Returns tg c y r → Run tg base mem y

end Fuzemsys.Libs.Malloc
