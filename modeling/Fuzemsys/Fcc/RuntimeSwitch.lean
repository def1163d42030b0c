import Fuzemsys.Fcc.Body
import Fuzemsys.Fcc.RuntimeCompare

/-!
# Switch tables and their walkers
-/

open Fuzemsys.Lib

namespace Fuzemsys.Fcc.Runtime

open Code6800 (Cpu hiByte loByte)
open Tree (CType PTR CCHAR UCHAR CSHORT USHORT CLONG ULONG FLOAT)
open Body (Event)

/-! ## The files -/

/-- X holds the switch table. The walkers of bytes and words differ in how they compare. -/
def switchWalker (file : File) (entry : Name) (compare : Line) : Code :=
  let l := Label.mk file
  [.label (l entry), op .ldy (.postInc2 .x), .branch .eq (l .gotit),
    .label (l .next), .line compare, .branch .eq (l .gotit), op .leax (.index 2 .x), op .leay (.index (-1) .y),
    .branch .ne (l .next),
    .label (l .gotit), op .ldx (.index 0 .x), .jump]

def switchc : Code := switchWalker .__switchc .__switchc ⟨.cmpb, .postInc .x⟩

def switch : Code := switchWalker .__switch .__switch ⟨.cmpd, .postInc2 .x⟩

/-- The count is on the stack. -/
def switchl : Code :=
  let l := Label.mk .__switchl
  [.label (l .__switchl), op .leas (.index (-4) .s), op .sty (.index 0 .s), op .ldy (.postInc2 .x),
    op .sty (.index 2 .s), op .ldy (.postInc2 .s), op .inc (.index 1 .s), .branch .ra (l .moveon),
    .label (l .next), op .cmpy (.postInc2 .x), .branch .ne (l .bump), op .cmpd (.postInc2 .x), .branch .eq (l .gotit),
    op .leax (.index 2 .x),
    .label (l .moveon), op .dec (.index 1 .s), .branch .ne (l .next),
    .label (l .gotit), op .ldx (.index 0 .x), op .leas (.index 2 .s), .jump,
    .label (l .bump), op .leax (.index 4 .x), .branch .ra (l .moveon)]

/-! ## Tables in memory -/

/-- Where a value is and how long it is. -/
structure Reading (w : Nat) where
  size : BitVec 16
  read : (BitVec 16 → Byte) → BitVec 16 → BitVec w

def wordAt (mem : BitVec 16 → Byte) (a : BitVec 16) : BitVec 16 := mem a ++ mem (a + 1)

def byteReading : Reading 8 := ⟨1, fun mem a => mem a⟩

def wordReading : Reading 16 := ⟨2, wordAt⟩

def longReading : Reading 32 := ⟨4, fun mem a => wordAt mem a ++ wordAt mem (a + 2)⟩

section
variable {w : Nat} (r : Reading w) (mem : BitVec 16 → Byte)

/-- Values with their labels, and the default label behind them. -/
def Entries (d : BitVec 16) : BitVec 16 → List (BitVec w × BitVec 16) → Prop
  | a, [] => wordAt mem a = d
  | a, (u, l) :: es => r.read mem a = u ∧ wordAt mem (a + r.size) = l ∧ Entries d (a + r.size + 2) es

/-- The label of the first case with the value. -/
def chosen (v : BitVec w) (d : BitVec 16) : List (BitVec w × BitVec 16) → BitVec 16
  | [] => d
  | (u, l) :: es => if v = u then l else chosen v d es

end

/-! ## Bytes and words -/

variable {im : Linked} {a : BitVec 16} {s s' : State}

theorem exec_cmpb_x (s : State) :
    mc6809.exec ⟨.cmpb, .postInc .x⟩ s = ({ s with x := s.x + 1 } : State).compared s.b (s.mem s.x) := rfl

theorem exec_cmpd_x (s : State) :
    mc6809.exec ⟨.cmpd, .postInc2 .x⟩ s = ({ s with x := s.x + 2 } : State).compared s.d (wordAt s.mem s.x) := rfl

/-- A line that compares a value in A and B with one at X. -/
structure Compares {w : Nat} (r : Reading w) (compare : Line) (value : Byte → Byte → BitVec w) : Prop where
  pos : 0 < w
  exec (s : State) : mc6809.exec compare s = ({ s with x := s.x + r.size } : State).compared (value s.a s.b) (r.read s.mem s.x)

theorem compares_byte : Compares byteReading ⟨.cmpb, .postInc .x⟩ fun _ b => b := ⟨by decide, exec_cmpb_x⟩

theorem compares_word : Compares wordReading ⟨.cmpd, .postInc2 .x⟩ fun a b => a ++ b := ⟨by decide, exec_cmpd_x⟩

section
variable {file : File} {entry : Name} {compare : Line} {w : Nat} {r : Reading w} {value : Byte → Byte → BitVec w}

/-- What the walkers keep. -/
structure Kept (s s' : State) : Prop where
  a : s'.a = s.a
  b : s'.b = s.b
  stack : s'.s = s.s
  mem : s'.mem = s.mem

/-- X has gone over a value. -/
def compareNext {w : Nat} (r : Reading w) (value : Byte → Byte → BitVec w) (s : State) : State :=
  ({ s with x := s.x + r.size } : State).compared (value s.a s.b) (r.read s.mem s.x)

/-- X has gone over a label too, and there is one case less. -/
def moveOn {w : Nat} (r : Reading w) (value : Byte → Byte → BitVec w) (s : State) : State :=
  mc6809.exec ⟨.leay, .index (-1) .y⟩ (mc6809.exec ⟨.leax, .index 2 .x⟩ (compareNext r value s))

/-- X is the address of a label. -/
def load (s : State) : State := mc6809.exec ⟨.ldx, .index 0 .x⟩ s

theorem load_x (s : State) : (load s).x = wordAt s.mem s.x := by
  show wordAt s.mem (s.x + 0#16) = _
  rw [BitVec.add_zero]

theorem moveOn_x (s : State) : (moveOn r value s).x = s.x + r.size + 2 := rfl

theorem exec_leay (n : Int) (s : State) : mc6809.exec ⟨.leay, .index n .y⟩ s =
    { s with y := s.y + BitVec.ofInt 16 n, zero := decide (s.y + BitVec.ofInt 16 n = 0) } := rfl

theorem moveOn_eq (s : State) : moveOn r value s =
    { mc6809.exec ⟨.leax, .index 2 .x⟩ (compareNext r value s) with y := s.y - 1, zero := decide (s.y - 1 = 0) } := by
  have hy : s.y + BitVec.ofInt 16 (-1) = s.y - 1 := by bv_omega
  rw [← hy]
  exact exec_leay (-1) _

theorem moveOn_y (s : State) : (moveOn r value s).y = s.y - 1 := by rw [moveOn_eq]

theorem holds_moveOn (s : State) : mc6809.holds .ne (moveOn r value s) = !decide (s.y - 1 = 0) := by
  rw [moveOn_eq]
  rfl

theorem closed_walker : Processor.Closed (switchWalker file entry compare) (switchWalker file entry compare) = true := by
  simp [Processor.Closed, Image.Defines, switchWalker, op]

section
variable (hcompares : Compares r compare value) (hentry : entry ≠ .next ∧ entry ≠ .gotit)
include hcompares hentry

theorem walk_found (hv : value s.a s.b = r.read s.mem s.x) :
    mc6809.walk (switchWalker file entry compare) 5
      (Image.behind ⟨file, .next⟩ (switchWalker file entry compare), s) =
        ([.jump], load (compareNext r value s)) := by
  have hholds : mc6809.holds .eq (compareNext r value s) = true := by
    unfold compareNext
    rw [holds_compared hcompares.pos, Cond.tells, hv, beq_self_eq_true]
  unfold compareNext at hholds ⊢
  simp only [switchWalker, op, Image.behind, Processor.walk, Label.mk.injEq, reduceCtorEq, hentry.1, hentry.2, and_false,
    if_true, if_false, hcompares.exec, hholds]
  rfl

theorem walk_next (hv : value s.a s.b ≠ r.read s.mem s.x) (hy : s.y ≠ 1) :
    mc6809.walk (switchWalker file entry compare) 5
      (Image.behind ⟨file, .next⟩ (switchWalker file entry compare), s) =
        (Image.behind ⟨file, .next⟩ (switchWalker file entry compare), moveOn r value s) := by
  have hholds : mc6809.holds .eq (compareNext r value s) = false := by
    unfold compareNext
    rw [holds_compared hcompares.pos, Cond.tells, beq_eq_false_iff_ne]
    exact hv
  have hmore : mc6809.holds .ne (moveOn r value s) = true := by
    rw [holds_moveOn, Bool.not_eq_true', decide_eq_false_iff_not]
    bv_omega
  unfold moveOn at hmore ⊢
  unfold compareNext at hholds hmore ⊢
  simp only [switchWalker, op, Image.behind, Processor.walk, Label.mk.injEq, reduceCtorEq, hentry.1, hentry.2, and_false,
    if_true, if_false, hcompares.exec, hholds, hmore, Bool.false_eq_true]

theorem walk_last (hv : value s.a s.b ≠ r.read s.mem s.x) (hy : s.y = 1) :
    mc6809.walk (switchWalker file entry compare) 8
      (Image.behind ⟨file, .next⟩ (switchWalker file entry compare), s) = ([.jump], load (moveOn r value s)) := by
  have hholds : mc6809.holds .eq (compareNext r value s) = false := by
    unfold compareNext
    rw [holds_compared hcompares.pos, Cond.tells, beq_eq_false_iff_ne]
    exact hv
  have hmore : mc6809.holds .ne (moveOn r value s) = false := by
    rw [holds_moveOn, hy]
    rfl
  unfold moveOn at hmore ⊢
  unfold compareNext at hholds hmore ⊢
  simp only [switchWalker, op, Image.behind, Processor.walk, Label.mk.injEq, reduceCtorEq, hentry.1, hentry.2, and_false,
    if_true, if_false, hcompares.exec, hholds, hmore, Bool.false_eq_true]
  rfl

/-- One turn for each case until one has the value. -/
theorem walker_loop (hcode : im.Holds a (switchWalker file entry compare)) (es : List (BitVec w × BitVec 16)) {d : BitVec 16}
    (hes : es ≠ []) (hlen : es.length < 2 ^ 16) (hentries : Entries r s.mem d s.x es) (hy : s.y = BitVec.ofNat 16 es.length) :
    ∃ s', mc6809.Goes im (Image.behind ⟨file, .next⟩ (switchWalker file entry compare), s) ([.jump], s') ∧
      s'.x = chosen (value s.a s.b) d es ∧ s'.s = s.s ∧ s'.mem = s.mem := by
  have hgoes (n : Nat) (s : State) := Processor.goes_walk (m := mc6809) hcode closed_walker n
    (x := (Image.behind ⟨file, .next⟩ (switchWalker file entry compare), s)) (Processor.closed_behind closed_walker _)
  induction es generalizing s with
  | nil => exact absurd rfl hes
  | cons e es ih =>
    obtain ⟨u, l⟩ := e
    obtain ⟨hu, hl, hrest⟩ := hentries
    by_cases hv : value s.a s.b = u
    · refine ⟨load (compareNext r value s), ?_, ?_, rfl, rfl⟩
      · rw [← walk_found hcompares hentry (hv.trans hu.symm)]
        exact hgoes 5 s
      · rw [load_x]
        unfold chosen
        rw [if_pos hv]
        exact hl
    · have hne : value s.a s.b ≠ r.read s.mem s.x := fun heq => hv (heq.trans hu)
      unfold chosen
      rw [if_neg hv]
      cases es with
      | nil =>
        have hone : s.y = 1 := hy
        refine ⟨load (moveOn r value s), ?_, ?_, rfl, rfl⟩
        · rw [← walk_last hcompares hentry hne hone]
          exact hgoes 8 s
        · rw [load_x, moveOn_x]
          exact hrest
      | cons e' es =>
        have hmore : s.y ≠ 1 := by
          rw [hy]
          simp only [List.length_cons] at hlen ⊢
          bv_omega
        obtain ⟨s', hrun, hx, hs, hmem⟩ := @ih (moveOn r value s) (by simp) (by simp only [List.length_cons] at hlen ⊢; omega)
          hrest (by
            rw [moveOn_y, hy]
            simp only [List.length_cons] at hlen ⊢
            bv_omega)
        refine ⟨s', ?_, hx, hs, hmem⟩
        have hfirst := hgoes 5 s
        rw [walk_next hcompares hentry hne hmore] at hfirst
        exact hfirst.trans hrun

/-- The run from the entry to the label that is jumped to. -/
theorem walker_run (hcode : im.Holds a (switchWalker file entry compare)) (es : List (BitVec w × BitVec 16)) {d : BitVec 16}
    (hlen : es.length < 2 ^ 16) (hcount : wordAt s.mem s.x = BitVec.ofNat 16 es.length)
    (hentries : Entries r s.mem d (s.x + 2) es) :
    ∃ s', mc6809.Reaches im ⟨im.label ⟨file, entry⟩, s⟩ ⟨chosen (value s.a s.b) d es, s'⟩ ∧ s'.s = s.s ∧ s'.mem = s.mem := by
  let s₁ := mc6809.exec ⟨.ldy, .postInc2 .x⟩ s
  have hdefines : Image.Defines ⟨file, entry⟩ (switchWalker file entry compare) = true := by
    simp [Image.Defines, switchWalker, op]
  have hgoes (n : Nat) := Processor.goes_walk (m := mc6809) hcode closed_walker n
    (x := (Image.behind ⟨file, entry⟩ (switchWalker file entry compare), s)) (Processor.closed_behind closed_walker _)
  have hzero : mc6809.holds .eq s₁ = decide (BitVec.ofNat 16 es.length = 0) := by
    rw [← hcount]
    rfl
  have hjumps {s' : State} (hrun : mc6809.Goes im (Image.behind ⟨file, entry⟩ (switchWalker file entry compare), s)
      ([.jump], s')) : mc6809.Reaches im ⟨im.label ⟨file, entry⟩, s⟩ ⟨s'.x, s'⟩ := by
    obtain ⟨b, hrest, hreach⟩ := hrun _ (Image.holds_behind hcode hdefines)
    exact hreach.trans (Processor.goes_jump hrest)
  cases es with
  | nil =>
    refine ⟨load s₁, ?_, rfl, rfl⟩
    have hx : (load s₁).x = d := by
      rw [load_x]
      exact hentries
    have hwalk : mc6809.walk (switchWalker file entry compare) 4
        (Image.behind ⟨file, entry⟩ (switchWalker file entry compare), s) = ([.jump], load s₁) := by
      simp only [switchWalker, op, Image.behind, Processor.walk, Label.mk.injEq, reduceCtorEq, and_false, if_true, if_false, hentry.2]
      rw [if_pos (by rw [hzero]; rfl)]
      rfl
    have hrun := hgoes 4
    rw [hwalk] at hrun
    rw [chosen, ← hx]
    exact hjumps hrun
  | cons e es =>
    have hwalk : mc6809.walk (switchWalker file entry compare) 3
        (Image.behind ⟨file, entry⟩ (switchWalker file entry compare), s) =
          (Image.behind ⟨file, .next⟩ (switchWalker file entry compare), s₁) := by
      have hsome : mc6809.holds .eq s₁ = false := by
        rw [hzero, decide_eq_false_iff_not]
        simp only [List.length_cons] at hlen ⊢
        bv_omega
      simp only [switchWalker, op, Image.behind, Processor.walk, Label.mk.injEq, reduceCtorEq, and_false, if_true, if_false,
        hentry.1, hentry.2]
      rw [if_neg (by rw [hsome]; decide)]
    obtain ⟨s', hrun, hx, hs, hmem⟩ := walker_loop hcompares hentry (s := s₁) hcode (e :: es) (by simp) hlen hentries hcount
    have hfirst := hgoes 3
    rw [hwalk] at hfirst
    refine ⟨s', ?_, hs, hmem⟩
    have hreach := hjumps (hfirst.trans hrun)
    rw [hx] at hreach
    exact hreach

end

end

/-! ## Longs -/

/-- The same but for the four bytes below the stack. -/
def Agrees (top : BitVec 16) (mem mem' : BitVec 16 → Byte) : Prop :=
  ∀ p, p ≠ top - 1 → p ≠ top - 2 → p ≠ top - 3 → p ≠ top - 4 → mem' p = mem p

/-- A turn counts down first. -/
def countDown (s : State) : State := mc6809.exec ⟨.dec, .index 1 .s⟩ s

def compareHigh (s : State) : State := mc6809.exec ⟨.cmpy, .postInc2 .x⟩ (countDown s)

def compareLow (s : State) : State := mc6809.exec ⟨.cmpd, .postInc2 .x⟩ (compareHigh s)

def leave (s : State) : State := mc6809.exec ⟨.leas, .index 2 .s⟩ (load s)

/-- The return of a turn to its start. -/
def skipLow (s : State) : State := mc6809.exec ⟨.leax, .index 4 .x⟩ (compareHigh s)

def skipLabel (s : State) : State := mc6809.exec ⟨.leax, .index 2 .x⟩ (compareLow s)

theorem holds_countDown (s : State) : mc6809.holds .ne (countDown s) = !decide (s.mem (s.s + 1) - 1 = 0) := rfl

theorem compareHigh_eq (s : State) : compareHigh s =
    ({ countDown s with x := s.x + 2 } : State).compared s.y (wordAt (countDown s).mem s.x) := rfl

theorem compareLow_eq (s : State) : compareLow s =
    ({ compareHigh s with x := s.x + 2 + 2 } : State).compared (s.a ++ s.b) (wordAt (countDown s).mem (s.x + 2)) := rfl

theorem exec_leax (n : Int) (s : State) : mc6809.exec ⟨.leax, .index n .x⟩ s =
    { s with x := s.x + BitVec.ofInt 16 n, zero := decide (s.x + BitVec.ofInt 16 n = 0) } := rfl

/-- A turn that goes over a case. -/
structure Skips (s s₁ : State) : Prop where
  x : s₁.x = s.x + 4 + 2
  y : s₁.y = s.y
  a : s₁.a = s.a
  b : s₁.b = s.b
  stack : s₁.s = s.s
  mem : s₁.mem = (countDown s).mem

theorem skipLow_skips (s : State) : Skips s (skipLow s) := by
  have hx : s.x + 2 + 4 = s.x + 4 + 2 := by
    rw [BitVec.add_assoc, BitVec.add_assoc]
    rfl
  unfold skipLow
  rw [exec_leax, compareHigh_eq]
  exact ⟨hx, rfl, rfl, rfl, rfl, rfl⟩

theorem skipLabel_skips (s : State) : Skips s (skipLabel s) := by
  have hx : s.x + 2 + 2 + 2 = s.x + 4 + 2 := by
    rw [BitVec.add_assoc s.x]
    rfl
  unfold skipLabel
  rw [exec_leax, compareLow_eq, compareHigh_eq]
  exact ⟨hx, rfl, rfl, rfl, rfl, rfl⟩

/-- A turn that leaves, with the label at X and the stack as it was. -/
theorem leave_eq (s : State) : (leave s).x = wordAt s.mem s.x ∧ (leave s).s = s.s + 2 ∧ (leave s).mem = s.mem := by
  refine ⟨?_, rfl, rfl⟩
  show (load s).x = _
  exact load_x s

section
variable (hmore : mc6809.holds .ne (countDown s) = true)
include hmore

theorem walkl_bump (hhigh : s.y ≠ wordAt (countDown s).mem s.x) :
    mc6809.walk switchl 6 (Image.behind ⟨.__switchl, .moveon⟩ switchl, s) =
      (Image.behind ⟨.__switchl, .moveon⟩ switchl, skipLow s) := by
  have hne : mc6809.holds .ne (compareHigh s) = true := by
    rw [compareHigh_eq, holds_compared (by decide), Cond.tells, bne_iff_ne]
    exact hhigh
  unfold skipLow
  unfold compareHigh at hne ⊢
  unfold countDown at hmore hne ⊢
  simp only [switchl, op, Image.behind, Processor.walk, Label.mk.injEq, reduceCtorEq, and_false, if_true, if_false, hmore,
    hne, holds_ra]

theorem walkl_next (hhigh : s.y = wordAt (countDown s).mem s.x) (hlow : s.a ++ s.b ≠ wordAt (countDown s).mem (s.x + 2)) :
    mc6809.walk switchl 8 (Image.behind ⟨.__switchl, .moveon⟩ switchl, s) =
      (Image.behind ⟨.__switchl, .moveon⟩ switchl, skipLabel s) := by
  have hne : mc6809.holds .ne (compareHigh s) = false := by
    rw [compareHigh_eq, holds_compared (by decide), Cond.tells, hhigh, bne_self_eq_false]
  have heq : mc6809.holds .eq (compareLow s) = false := by
    rw [compareLow_eq, holds_compared (by decide), Cond.tells, beq_eq_false_iff_ne]
    exact hlow
  unfold skipLabel
  unfold compareLow at heq ⊢
  unfold compareHigh at hne heq ⊢
  unfold countDown at hmore hne heq ⊢
  simp only [switchl, op, Image.behind, Processor.walk, Label.mk.injEq, reduceCtorEq, and_false, if_true, if_false, hmore,
    hne, heq, Bool.false_eq_true]

theorem walkl_found (hhigh : s.y = wordAt (countDown s).mem s.x) (hlow : s.a ++ s.b = wordAt (countDown s).mem (s.x + 2)) :
    ∃ code, mc6809.walk switchl 8 (Image.behind ⟨.__switchl, .moveon⟩ switchl, s) =
      (.jump :: code, leave (compareLow s)) := by
  have hne : mc6809.holds .ne (compareHigh s) = false := by
    rw [compareHigh_eq, holds_compared (by decide), Cond.tells, hhigh, bne_self_eq_false]
  have heq : mc6809.holds .eq (compareLow s) = true := by
    rw [compareLow_eq, holds_compared (by decide), Cond.tells, hlow, beq_self_eq_true]
  unfold leave load
  unfold compareLow at heq ⊢
  unfold compareHigh at hne heq ⊢
  unfold countDown at hmore hne heq ⊢
  simp only [switchl, op, Image.behind, Processor.walk, Label.mk.injEq, reduceCtorEq, and_false, if_true, if_false, hmore,
    hne, heq, Bool.false_eq_true]
  exact ⟨_, rfl⟩

end

theorem walkl_last (hlast : mc6809.holds .ne (countDown s) = false) :
    ∃ code, mc6809.walk switchl 5 (Image.behind ⟨.__switchl, .moveon⟩ switchl, s) =
      (.jump :: code, leave (countDown s)) := by
  unfold leave load
  unfold countDown at hlast ⊢
  simp only [switchl, op, Image.behind, Processor.walk, Label.mk.injEq, reduceCtorEq, and_false, if_true, if_false, hlast,
    Bool.false_eq_true]
  exact ⟨_, rfl⟩

theorem Agrees.trans {top : BitVec 16} {mem mem' mem'' : BitVec 16 → Byte} (h : Agrees top mem mem')
    (h' : Agrees top mem' mem'') : Agrees top mem mem'' :=
  fun p h₁ h₂ h₃ h₄ => (h' p h₁ h₂ h₃ h₄).trans (h p h₁ h₂ h₃ h₄)

theorem word_append_inj {xh xl yh yl : BitVec 16} : xh ++ xl = yh ++ yl ↔ yh = xh ∧ yl = xl := by
  have hbeq := append_beq xh xl yh yl
  rw [Bool.eq_iff_iff, Bool.and_eq_true, beq_iff_eq, beq_iff_eq, beq_iff_eq] at hbeq
  exact hbeq

theorem closed_switchl : Processor.Closed switchl switchl = true := rfl

/-- What a turn finds: `n` cases are left. -/
structure Turn (top : BitVec 16) (mem : BitVec 16 → Byte) (n : Nat) (s : State) : Prop where
  stack : s.s = top - 2
  count : s.mem (s.s + 1) = BitVec.ofNat 8 (n + 1)
  agrees : Agrees top mem s.mem

theorem Turn.down {top : BitVec 16} {mem : BitVec 16 → Byte} {n : Nat} (ht : Turn top mem n s) :
    Agrees top mem (countDown s).mem ∧ (countDown s).mem (s.s + 1) = BitVec.ofNat 8 n ∧
      mc6809.holds .ne (countDown s) = !decide (BitVec.ofNat 8 n = 0) := by
  have hn : BitVec.ofNat 8 (n + 1) - 1 = BitVec.ofNat 8 n := by
    rw [BitVec.ofNat_add]
    exact BitVec.add_sub_cancel _ _
  have hmem (p : BitVec 16) : (countDown s).mem p = if p = s.s + 1 then s.mem (s.s + 1) - 1 else s.mem p := rfl
  refine ⟨ht.agrees.trans fun p h₁ h₂ h₃ h₄ => ?_, ?_, ?_⟩
  · rw [hmem, if_neg]
    rw [ht.stack]
    bv_omega
  · rw [hmem, if_pos rfl, ht.count, hn]
  · rw [holds_countDown, ht.count, hn]

/-- One turn for each case until one has the value. -/
theorem walkl_loop (hcode : im.Holds a switchl) {top : BitVec 16} {mem : BitVec 16 → Byte} {d : BitVec 16}
    (es : List (BitVec 32 × BitVec 16)) (hlen : es.length < 256)
    (hentries : ∀ mem', Agrees top mem mem' → Entries longReading mem' d s.x es) (ht : Turn top mem es.length s) :
    ∃ code s', mc6809.Goes im (Image.behind ⟨.__switchl, .moveon⟩ switchl, s) (.jump :: code, s') ∧
      s'.x = chosen (s.y ++ (s.a ++ s.b)) d es ∧ s'.s = top ∧ Agrees top mem s'.mem := by
  have hgoes (n : Nat) (s : State) := Processor.goes_walk (m := mc6809) hcode closed_switchl n
    (x := (Image.behind ⟨.__switchl, .moveon⟩ switchl, s)) rfl
  induction es generalizing s with
  | nil =>
    obtain ⟨hagrees, -, hholds⟩ := ht.down
    obtain ⟨code, hwalk⟩ := walkl_last (s := s) hholds
    obtain ⟨hx, hs, hmem⟩ := leave_eq (countDown s)
    refine ⟨code, leave (countDown s), ?_, ?_, ?_, ?_⟩
    · rw [← hwalk]
      exact hgoes 5 s
    · rw [hx]
      exact hentries _ hagrees
    · have hstack : (countDown s).s = s.s := rfl
      rw [hs, hstack, ht.stack]
      bv_omega
    · rw [hmem]
      exact hagrees
  | cons e es ih =>
    obtain ⟨u, l⟩ := e
    obtain ⟨hagrees, hcount, hholds⟩ := ht.down
    obtain ⟨hu, hl, -⟩ := hentries _ hagrees
    have hmore : mc6809.holds .ne (countDown s) = true := by
      rw [hholds, Bool.not_eq_true', decide_eq_false_iff_not]
      simp only [List.length_cons] at hlen ⊢
      bv_omega
    have hvalue : s.y ++ (s.a ++ s.b) = u ↔
        wordAt (countDown s).mem s.x = s.y ∧ wordAt (countDown s).mem (s.x + 2) = s.a ++ s.b := by
      rw [← hu]
      exact word_append_inj
    have hnext {s₁ : State} (hs : Skips s s₁) :
        ∃ code s', mc6809.Goes im (Image.behind ⟨.__switchl, .moveon⟩ switchl, s₁) (.jump :: code, s') ∧
          s'.x = chosen (s.y ++ (s.a ++ s.b)) d es ∧ s'.s = top ∧ Agrees top mem s'.mem := by
      rw [← hs.y, ← hs.a, ← hs.b]
      refine ih (by simp only [List.length_cons] at hlen; omega) (fun mem' hmem' => ?_) ⟨?_, ?_, ?_⟩
      · rw [hs.x]
        exact (hentries mem' hmem').2.2
      · rw [hs.stack, ht.stack]
      · rw [hs.stack, hs.mem]
        exact hcount
      · rw [hs.mem]
        exact hagrees
    unfold chosen
    by_cases hhigh : s.y = wordAt (countDown s).mem s.x
    · by_cases hlow : s.a ++ s.b = wordAt (countDown s).mem (s.x + 2)
      · obtain ⟨code, hwalk⟩ := walkl_found hmore hhigh hlow
        rw [if_pos (hvalue.mpr ⟨hhigh.symm, hlow.symm⟩)]
        obtain ⟨hx, hs, hmem⟩ := leave_eq (compareLow s)
        have hlow : (compareLow s).x = s.x + 4 ∧ (compareLow s).s = s.s ∧ (compareLow s).mem = (countDown s).mem := by
          rw [compareLow_eq, compareHigh_eq]
          exact ⟨BitVec.add_assoc _ _ _, rfl, rfl⟩
        refine ⟨code, leave (compareLow s), ?_, ?_, ?_, ?_⟩
        · rw [← hwalk]
          exact hgoes 8 s
        · rw [hx, hlow.1, hlow.2.2]
          exact hl
        · rw [hs, hlow.2.1, ht.stack]
          bv_omega
        · rw [hmem, hlow.2.2]
          exact hagrees
      · rw [if_neg fun heq => hlow (hvalue.mp heq).2.symm]
        have hfirst := hgoes 8 s
        rw [walkl_next hmore hhigh hlow] at hfirst
        obtain ⟨code, s', hrun, hend⟩ := hnext (skipLabel_skips s)
        exact ⟨code, s', hfirst.trans hrun, hend⟩
    · rw [if_neg fun heq => hhigh (hvalue.mp heq).1.symm]
      have hfirst := hgoes 6 s
      rw [walkl_bump hmore hhigh] at hfirst
      obtain ⟨code, s', hrun, hend⟩ := hnext (skipLow_skips s)
      exact ⟨code, s', hfirst.trans hrun, hend⟩

/-- Y is on the stack. -/
def openUp (s : State) : State := mc6809.exec ⟨.sty, .index 0 .s⟩ (mc6809.exec ⟨.leas, .index (-4) .s⟩ s)

/-- Y is saved, and the count is in its place. -/
def saved (s : State) : State := mc6809.exec ⟨.ldy, .postInc2 .x⟩ (openUp s)

/-- Up to the first turn. -/
def prologue (s : State) : State :=
  mc6809.exec ⟨.inc, .index 1 .s⟩ (mc6809.exec ⟨.ldy, .postInc2 .s⟩ (mc6809.exec ⟨.sty, .index 2 .s⟩ (saved s)))

theorem exec_leas (n : Int) (s : State) : mc6809.exec ⟨.leas, .index n .s⟩ s = { s with s := s.s + BitVec.ofInt 16 n } := rfl

theorem exec_leas_kept (n : Int) (s : State) : (mc6809.exec ⟨.leas, .index n .s⟩ s).a = s.a ∧
    (mc6809.exec ⟨.leas, .index n .s⟩ s).b = s.b ∧ (mc6809.exec ⟨.leas, .index n .s⟩ s).x = s.x := ⟨rfl, rfl, rfl⟩

theorem exec_sty_kept (n : Int) (s : State) : (mc6809.exec ⟨.sty, .index n .s⟩ s).s = s.s ∧
    (mc6809.exec ⟨.sty, .index n .s⟩ s).a = s.a ∧
    (mc6809.exec ⟨.sty, .index n .s⟩ s).b = s.b ∧ (mc6809.exec ⟨.sty, .index n .s⟩ s).x = s.x := ⟨rfl, rfl, rfl, rfl⟩

theorem exec_inc_kept (n : Int) (s : State) : (mc6809.exec ⟨.inc, .index n .s⟩ s).s = s.s ∧
    (mc6809.exec ⟨.inc, .index n .s⟩ s).a = s.a ∧
    (mc6809.exec ⟨.inc, .index n .s⟩ s).b = s.b ∧ (mc6809.exec ⟨.inc, .index n .s⟩ s).x = s.x := ⟨rfl, rfl, rfl, rfl⟩

theorem exec_ldy_kept (s : State) : (mc6809.exec ⟨.ldy, .postInc2 .s⟩ s).s = s.s + 2 ∧
    (mc6809.exec ⟨.ldy, .postInc2 .s⟩ s).a = s.a ∧
    (mc6809.exec ⟨.ldy, .postInc2 .s⟩ s).b = s.b ∧ (mc6809.exec ⟨.ldy, .postInc2 .s⟩ s).x = s.x := ⟨rfl, rfl, rfl, rfl⟩

theorem exec_ldy_count (s : State) : (mc6809.exec ⟨.ldy, .postInc2 .x⟩ s).a = s.a ∧
    (mc6809.exec ⟨.ldy, .postInc2 .x⟩ s).b = s.b ∧ (mc6809.exec ⟨.ldy, .postInc2 .x⟩ s).x = s.x + 2 := ⟨rfl, rfl, rfl⟩

theorem prologue_kept (s : State) : (prologue s).a = s.a ∧ (prologue s).b = s.b ∧ (prologue s).x = s.x + 2 := by
  unfold prologue saved openUp
  simp only [exec_leas_kept, exec_sty_kept, exec_inc_kept, exec_ldy_kept, exec_ldy_count, and_self]

theorem exec_sty_top (s : State) (top : BitVec 16) :
    (mc6809.exec ⟨.sty, .index 0 .s⟩ { s with s := top }).x = s.x ∧
    (mc6809.exec ⟨.sty, .index 0 .s⟩ { s with s := top }).s = top ∧
    ∀ p, (mc6809.exec ⟨.sty, .index 0 .s⟩ { s with s := top }).mem p =
      if p = top then hiByte s.y else if p = top + 1 then loByte s.y else s.mem p := by
  simp [mc6809, exec, State.putWord, State.address, State.advance, State.on, Cpu.index, Cpu.test]

theorem openUp_spec (s : State) : (openUp s).x = s.x ∧ (openUp s).s = s.s + 65532#16 ∧
    ∀ p, (openUp s).mem p = if p = s.s + 65532#16 then hiByte s.y
      else if p = s.s + 65532#16 + 1 then loByte s.y else s.mem p := by
  have hs : mc6809.exec ⟨.leas, .index (-4) .s⟩ s = { s with s := s.s + 65532#16 } := exec_leas (-4) s
  unfold openUp
  rw [hs]
  exact exec_sty_top s _

theorem exec_ldy_x (s : State) :
    (mc6809.exec ⟨.ldy, .postInc2 .x⟩ s).s = s.s ∧ (mc6809.exec ⟨.ldy, .postInc2 .x⟩ s).mem = s.mem ∧
    (mc6809.exec ⟨.ldy, .postInc2 .x⟩ s).y = wordAt s.mem s.x := ⟨rfl, rfl, rfl⟩

theorem saved_spec (s : State) : (saved s).s = s.s + 65532#16 ∧ (saved s).mem = (openUp s).mem ∧
    (saved s).y = wordAt (openUp s).mem s.x := by
  obtain ⟨hx, hs, -⟩ := openUp_spec s
  rw [← hx, ← hs]
  exact exec_ldy_x (openUp s)

theorem saved_mem (s : State) (p : BitVec 16) : (saved s).mem p =
    if p = s.s + 65532#16 then hiByte s.y else if p = s.s + 65533#16 then loByte s.y else s.mem p := by
  have hlow : s.s + 65532#16 + 1 = s.s + 65533#16 := by bv_omega
  rw [(saved_spec s).2.1, (openUp_spec s).2.2, hlow]

theorem saved_y (s : State) : (saved s).y = wordAt (saved s).mem s.x := by
  rw [(saved_spec s).2.1]
  exact (saved_spec s).2.2

theorem prologue_mem (s : State) (p : BitVec 16) : (prologue s).mem p =
    if p = s.s + 65535#16 then loByte (saved s).y + 1 else if p = s.s + 65534#16 then hiByte (saved s).y
    else (saved s).mem p := by
  have hs := (saved_spec s).1
  unfold prologue
  generalize saved s = t at hs
  simp only [mc6809, exec, State.putWord, State.putByte, State.address, State.advance, State.byteOf, State.on, Cpu.index,
    Cpu.setIndex, Cpu.test, hs]
  simp [BitVec.add_assoc]
  split
  · rfl
  · split <;> rfl

theorem prologue_y (s : State) : (prologue s).y = s.y := by
  have hs := (saved_spec s).1
  have hhigh := saved_mem s (s.s + 65532#16)
  have hlow := saved_mem s (s.s + 65533#16)
  rw [if_pos rfl] at hhigh
  rw [if_neg (by bv_omega), if_pos rfl] at hlow
  have hy : (prologue s).y = (mc6809.exec ⟨.sty, .index 2 .s⟩ (saved s)).wordOf (.postInc2 .s) := rfl
  rw [hy, ← Code6800.hi_append_lo s.y, ← hhigh, ← hlow]
  generalize saved s = t at hs
  simp [mc6809, exec, State.putWord, State.address, State.advance, State.wordOf, State.on, Cpu.index, Cpu.test, hs,
    BitVec.add_assoc]

theorem prologue_turn {n : Nat} (hcount : ∀ mem', Agrees s.s s.mem mem' → wordAt mem' s.x = BitVec.ofNat 16 n) :
    Turn s.s s.mem n (prologue s) := by
  have hagrees : Agrees s.s s.mem (saved s).mem := by
    intro p _ _ h₃ h₄
    rw [saved_mem, if_neg (by bv_omega), if_neg (by bv_omega)]
  have hy : (saved s).y = BitVec.ofNat 16 n := by
    rw [saved_y]
    exact hcount _ hagrees
  have hstack : (prologue s).s = s.s - 2 := by
    unfold prologue
    simp only [exec_sty_kept, exec_inc_kept, exec_ldy_kept, (saved_spec s).1]
    bv_omega
  refine ⟨hstack, ?_, hagrees.trans fun p h₁ h₂ _ _ => ?_⟩
  · rw [prologue_mem, hstack, if_pos (by bv_omega), hy]
    apply BitVec.eq_of_toNat_eq
    simp [loByte]
  · rw [prologue_mem, if_neg (by bv_omega), if_neg (by bv_omega)]

theorem switchl_run (hcode : im.Holds a switchl) (es : List (BitVec 32 × BitVec 16)) {d : BitVec 16} (hlen : es.length < 256)
    (hcount : ∀ mem', Agrees s.s s.mem mem' → wordAt mem' s.x = BitVec.ofNat 16 es.length)
    (hentries : ∀ mem', Agrees s.s s.mem mem' → Entries longReading mem' d (s.x + 2) es) :
    ∃ s', mc6809.Reaches im ⟨im.label ⟨.__switchl, .__switchl⟩, s⟩ ⟨chosen (s.y ++ (s.a ++ s.b)) d es, s'⟩ ∧
      s'.s = s.s ∧ Agrees s.s s.mem s'.mem := by
  obtain ⟨ha, hb, hx⟩ := prologue_kept s
  rw [← hx] at hentries
  obtain ⟨code, s', hrun, hchosen, hs, hmem⟩ := walkl_loop (s := prologue s) hcode es hlen hentries (prologue_turn hcount)
  rw [prologue_y, ha, hb] at hchosen
  refine ⟨s', ?_, hs, hmem⟩
  have hfirst := Processor.goes_walk (m := mc6809) hcode closed_switchl 7
    (x := (Image.behind ⟨.__switchl, .__switchl⟩ switchl, s)) rfl
  have hwalk : mc6809.walk switchl 7 (Image.behind ⟨.__switchl, .__switchl⟩ switchl, s) =
      (Image.behind ⟨.__switchl, .moveon⟩ switchl, prologue s) := by
    unfold prologue saved openUp
    simp only [switchl, op, Image.behind, Processor.walk, Label.mk.injEq, reduceCtorEq, and_false, if_true, if_false,
      holds_ra]
  rw [hwalk] at hfirst
  obtain ⟨b, hrest, hreach⟩ := (hfirst.trans hrun) _ (Image.holds_behind hcode rfl)
  rw [← hchosen]
  exact hreach.trans (Processor.goes_jump hrest)

end Fuzemsys.Fcc.Runtime
