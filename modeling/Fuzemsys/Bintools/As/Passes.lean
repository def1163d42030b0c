import Fuzemsys.Bintools.As.Emit

/-!
# The last two passes

Pass 2 counts what each segment will take in the object file. From the counts the file
is laid out, and pass 3 writes it. The two passes read the same source, so they make the
same calls, but a value can differ between them.
-/

namespace Fuzemsys.Bintools.As

/-! ## The source -/

/-- What a line of the source makes the assembler call. -/
inductive Call where
  | setSegment (seg : Seg)
  | org (addr : Word)
  | outab (b : Byte)
  | outab2 (b : Byte)
  | outabchk2 (a : Addr)
  | outrab (a : Addr)
  | outraw (a : Addr)
  | outrabrel (a : Addr)
  | outrawrel (a : Addr)
  | outzeros (n : Word)

def call (tgt : Target) (st : Asm) : Call → Except AsError Asm
  | .setSegment seg => .ok (setSegment st seg)
  | .org addr => org st addr
  | .outab b => outab tgt st b
  | .outab2 b => outab2 tgt st b
  | .outabchk2 a => outabchk2 tgt st a
  | .outrab a => outrab tgt st a
  | .outraw a => outraw tgt st a
  | .outrabrel a => outrabrel tgt st a
  | .outrawrel a => outrawrel tgt st a
  | .outzeros n => outzeros tgt st n.toNat

def runCalls (tgt : Target) (st : Asm) : List Call → Except AsError Asm
  | [] => .ok st
  | c :: cs =>
    match call tgt st c with
    | .error e => .error e
    | .ok st => runCalls tgt st cs

/-- Two operands of one kind: only the value can differ, and the numbers of symbols, which are
given out before the last pass. -/
def Addr.sameKind (a a' : Addr) : Prop :=
  a.a_segment = a'.a_segment ∧ a.a_low = a'.a_low ∧ a.a_high = a'.a_high ∧ a.a_sym.isSome = a'.a_sym.isSome

/-- One call in two passes. -/
def Call.same : Call → Call → Prop
  | .setSegment seg, .setSegment seg' => seg = seg'
  | .org _, .org _ => True
  | .outab _, .outab _ => True
  | .outab2 _, .outab2 _ => True
  | .outabchk2 a, .outabchk2 a' => a.sameKind a'
  | .outrab a, .outrab a' => a.sameKind a'
  | .outraw a, .outraw a' => a.sameKind a'
  | .outrabrel a, .outrabrel a' => a.sameKind a'
  | .outrawrel a, .outrawrel a' => a.sameKind a'
  | .outzeros _, .outzeros _ => True
  | _, _ => False

/-! ## The passes -/

/-- The size of the header. -/
def headerSize : Nat := 100

/-- The start of pass 2. What the passes before it left in `segbase` does not matter. -/
def startPass2 (segbase : Seg → Nat) : Asm where
  pass := 2
  segment := CODE
  dot := fun _ => 0
  segsize := fun _ => 0
  truesize := fun _ => 0
  segbase := segbase
  segpad := fun _ => 0
  full := fun _ => false
  pos := 0
  out := []

/-- The room for a segment: what pass 2 counted, what it reserved, and the mark of the end. -/
def room (st : Asm) (seg : Seg) : Nat :=
  if seg = BSS then 0 else (st.segsize seg).toNat + (st.segpad seg).toNat + 2

/-- `o_segbase`, and for 14 the base of the symbols. -/
def layout (st : Asm) : Nat → Nat
  | 0 => headerSize
  | i + 1 => layout st i + if h : i < OSEG then room st ⟨i, h⟩ else 0

/-- `o_size`, of 16 bits. -/
def o_size (st : Asm) (seg : Seg) : Word := (st.truesize seg).setWidth 16

def startPass3 (st : Asm) : Asm :=
  let st := { st with
    pass := 3
    segment := CODE
    dot := fun _ => 0
    segbase := fun seg => layout st seg.val
    segsize := fun _ => 0
    truesize := fun _ => 0 }
  outsegment st st.segment

/-- The loop of `outeof`. -/
def outends (st : Asm) : List Seg → Asm
  | [] => st
  | seg :: segs =>
    if seg = BSS then outends st segs
    else outends (outbytes (setSegment st seg) [REL_ESC, REL_EOF]) segs

def outeof (st : Asm) : Asm := outends st (List.finRange OSEG)

/-! ## The law of the streams -/

/-- A source that is assembled without an error, with the states after both passes. -/
structure Assembled (tgt : Target) (segbase : Seg → Nat) (calls2 calls3 : List Call) (st2 st3 : Asm) : Prop where
  pass2 : runCalls tgt (startPass2 segbase) calls2 = .ok st2
  pass3 : runCalls tgt (startPass3 st2) calls3 = .ok st3

/-- What the file has of a segment. -/
def streamIn (st : Asm) (seg : Seg) : List Written := st.out.filter fun w => w.seg = seg

/-- The streams lie in their rooms, whole and apart, and the sizes are those of the program. -/
structure StreamsFit (st2 st3 : Asm) : Prop where
  fits : ∀ seg ≠ BSS, (streamIn st3 seg).length ≤ (st2.segsize seg).toNat + (st2.segpad seg).toNat
  whole : ∀ seg ≠ BSS, (streamIn (outeof st3) seg).map Written.pos =
    List.range' (layout st2 seg.val) ((streamIn st3 seg).length + 2)
  apart : ∀ seg, ∀ w ∈ (outeof st3).out,
    w.seg = seg ↔ layout st2 seg.val ≤ w.pos ∧ w.pos < layout st2 (seg.val + 1)
  sizes : ∀ seg, (o_size st2 seg).toNat = (st3.truesize seg).toNat

end Fuzemsys.Bintools.As
