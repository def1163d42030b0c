import Fuzemsys.Fcc.Runtime6809

/-!
# Comparisons of longs

The left operand is on the stack, the right one in Y and D.
-/

open Fuzemsys.Lib

namespace Fuzemsys.Fcc.Runtime

open Code6800 (Cpu)

/-! ## The files -/

def cceql : Code :=
  let l := Label.mk .__cceql
  [.label (l .__cceql), op .cmpy (.index 2 .s), .branch .ne (l .no), op .cmpd (.index 4 .s), .branch .ne (l .no),
    op .ldd (.direct .one 0),
    .label (l .out), op .ldx (.index 0 .s), op .leas (.index 6 .s), op .tstb .none, .jump,
    .label (l .no), op .clra .none, op .clrb .none, .branch .ra (l .out)]

def ccnel : Code :=
  let l := Label.mk .__ccnel
  [.label (l .__ccnel), op .cmpy (.index 2 .s), .branch .ne (l .yes), op .cmpd (.index 4 .s), .branch .ne (l .yes),
    op .clra .none, op .clrb .none,
    .label (l .out), op .ldx (.index 0 .s), op .leas (.index 6 .s), op .tstb .none, .jump,
    .label (l .yes), op .ldd (.direct .one 0), .branch .ra (l .out)]

def ccltl : Code :=
  let l := Label.mk .__ccltl
  [.label (l .__ccltul), op .cmpy (.index 2 .s), .branch .hi (l .yes), .branch .eq (l .cclow), .branch .ra (l .no),
    .label (l .__ccltl), op .cmpy (.index 2 .s), .branch .gt (l .yes), .branch .ne (l .no),
    .label (l .cclow), op .cmpd (.index 4 .s), .branch .hi (l .yes),
    .label (l .no), op .clra .none, op .clrb .none,
    .label (l .out), op .ldx (.index 0 .s), op .leas (.index 6 .s), op .tstb .none, .jump,
    .label (l .yes), op .ldd (.direct .one 0), .branch .ra (l .out)]

def ccgtl : Code :=
  let l := Label.mk .__ccgtl
  [.label (l .__ccgtul), op .cmpy (.index 2 .s), .branch .lo (l .yes), .branch .eq (l .cclow), .branch .ra (l .no),
    .label (l .__ccgtl), op .cmpy (.index 2 .s), .branch .lt (l .yes), .branch .ne (l .no),
    .label (l .cclow), op .cmpd (.index 4 .s), .branch .lo (l .yes),
    .label (l .no), op .clra .none, op .clrb .none,
    .label (l .out), op .ldx (.index 0 .s), op .leas (.index 6 .s), op .tstb .none, .jump,
    .label (l .yes), op .ldd (.direct .one 0), .branch .ra (l .out)]

def cclteql : Code :=
  let l := Label.mk .__cclteql
  [.label (l .__ccltequl), op .cmpy (.index 2 .s), .branch .lo (l .no), .branch .hi (l .yes), .branch .ra (l .cclow),
    .label (l .__cclteql), op .cmpy (.index 2 .s), .branch .lt (l .no), .branch .gt (l .yes),
    .label (l .cclow), op .cmpd (.index 4 .s), .branch .lo (l .no),
    .label (l .yes), op .ldd (.direct .one 0),
    .label (l .out), op .ldx (.index 0 .s), op .leas (.index 6 .s), op .tstb .none, .jump,
    .label (l .no), op .clra .none, op .clrb .none, .branch .ra (l .out)]

/-- The signed entry goes on to the low words unless the right side is greater. -/
def ccgteql : Code :=
  let l := Label.mk .__ccgteql
  [.label (l .__ccgtequl), op .cmpy (.index 2 .s), .branch .hi (l .no), .branch .lo (l .yes), .branch .ra (l .cclow),
    .label (l .__ccgteql), op .cmpy (.index 2 .s), .branch .gt (l .no),
    .label (l .cclow), op .cmpd (.index 4 .s), .branch .hi (l .no),
    .label (l .yes), op .ldd (.direct .one 0),
    .label (l .out), op .ldx (.index 0 .s), op .leas (.index 6 .s), op .tstb .none, .jump,
    .label (l .no), op .clra .none, op .clrb .none, .branch .ra (l .out)]

inductive Comparison where
  | eql
  | nel
  | ltl
  | ltul
  | gtl
  | gtul
  | lteql
  | ltequl
  | gteql
  | gtequl
  deriving DecidableEq, Repr

namespace Comparison

def code : Comparison → Code
  | eql => cceql
  | nel => ccnel
  | ltl | ltul => ccltl
  | gtl | gtul => ccgtl
  | lteql | ltequl => cclteql
  | gteql | gtequl => ccgteql

def entry : Comparison → Label
  | eql => ⟨.__cceql, .__cceql⟩
  | nel => ⟨.__ccnel, .__ccnel⟩
  | ltl => ⟨.__ccltl, .__ccltl⟩
  | ltul => ⟨.__ccltl, .__ccltul⟩
  | gtl => ⟨.__ccgtl, .__ccgtl⟩
  | gtul => ⟨.__ccgtl, .__ccgtul⟩
  | lteql => ⟨.__cclteql, .__cclteql⟩
  | ltequl => ⟨.__cclteql, .__ccltequl⟩
  | gteql => ⟨.__ccgteql, .__ccgteql⟩
  | gtequl => ⟨.__ccgteql, .__ccgtequl⟩

/-- The comparison of C. -/
def answer (x y : BitVec 32) : Comparison → Bool
  | eql => x == y
  | nel => x != y
  | ltl => x.slt y
  | ltul => x.ult y
  | gtl => y.slt x
  | gtul => y.ult x
  | lteql => x.sle y
  | ltequl => x.ule y
  | gteql => y.sle x
  | gtequl => y.ule x

/-- What the routine tells, from the comparisons of the words. -/
def told (xh xl yh yl : BitVec 16) : Comparison → Bool
  | eql => yh == xh && yl == xl
  | nel => yh != xh || yl != xl
  | ltl => xh.slt yh || yh == xh && xl.ult yl
  | ltul => xh.ult yh || yh == xh && xl.ult yl
  | gtl => yh.slt xh || yh == xh && yl.ult xl
  | gtul => yh.ult xh || yh == xh && yl.ult xl
  | lteql => !yh.slt xh && (xh.slt yh || !yl.ult xl)
  | ltequl => !yh.ult xh && (xh.ult yh || !yl.ult xl)
  | gteql => !xh.slt yh && !xl.ult yl
  | gtequl => !xh.ult yh && (yh.ult xh || !xl.ult yl)

end Comparison

/-! ## Conditions after a comparison -/

/-- What a condition tells of two compared values. -/
def Cond.tells {n : Nat} (x y : BitVec n) : Cond → Bool
  | .ra => true
  | .eq => x == y
  | .ne => x != y
  | .cc => !x.ult y
  | .hi => y.ult x
  | .lo => x.ult y
  | .gt => y.slt x
  | .lt => x.slt y
  | .mi => (x - y).msb
  | .pl => !(x - y).msb

/-- The flags of a comparison. -/
def State.compared {n : Nat} (x y : BitVec n) (s : State) : State := s.on fun c => c.differenceFlags x y

theorem holds_compared {n : Nat} (hn : 0 < n) (s : State) (x y : BitVec n) (p : Cond) :
    mc6809.holds p (s.compared x y) = p.tells x y := by
  have hzero : decide (x - y = 0) = (x == y) := by
    rw [Bool.eq_iff_iff, decide_eq_true_eq, beq_iff_eq]
    exact sub_eq_zero
  have hless := Code6800.negative_overflow hn x y
  have hgreater : (!(x == y) && ((x - y).msb == x.ssubOverflow y)) = y.slt x := by
    have hnot : ((x - y).msb == x.ssubOverflow y) = !x.slt y := by rw [← hless, bne, Bool.not_not]
    have hle := BitVec.sle_eq_slt_or_eq (x := x) (y := y)
    have hgt : y.slt x = !x.sle y := by rw [BitVec.sle_eq_not_slt, Bool.not_not]
    rw [hnot, hgt, hle, Bool.not_or, Bool.and_comm]
  have habove : (!x.ult y && !(x == y)) = y.ult x := by
    rw [Bool.eq_iff_iff]
    simp only [BitVec.ult, Bool.and_eq_true, Bool.not_eq_true', decide_eq_false_iff_not, decide_eq_true_eq,
      beq_eq_false_iff_ne, ne_eq, ← BitVec.toNat_inj]
    omega
  cases p <;> simp only [mc6809, holds, State.compared, State.on, Cpu.differenceFlags, hzero, Cond.tells, hless, hgreater, habove]
  rfl

/-! ## The runs -/

/-- crt0.s has set the word. -/
def OneRight (s : State) : Prop := s.wordOf (.direct .one 0) = 1

theorem oneRight_iff {s : State} : OneRight s ↔ s.page 3 ++ s.page 4 = 1#16 := Iff.rfl

/-- The high word of the operand on the stack, and its low word. -/
def leftHigh (s : State) : BitVec 16 := s.wordOf (.index 2 .s)

def leftLow (s : State) : BitVec 16 := s.wordOf (.index 4 .s)

/-- D and Z tell `b`, and the return address and the operand are off the stack. -/
structure Told (s s' : State) (b : Bool) : Prop where
  d : s'.d = if b then 1 else 0
  zero : s'.zero = !b
  stack : s'.s = s.s + 6
  mem : s'.mem = s.mem
  page : s'.page = s.page
  x : s'.x = s.wordOf (.index 0 .s)

/-- A walk up to the jump back. -/
def Stops (s : State) (x : Code × State) (b : Bool) : Prop := (∃ code, x.1 = .jump :: code) ∧ Told s x.2 b

/-- Only the flags differ. -/
structure Like (s t : State) : Prop where
  stack : t.s = s.s
  mem : t.mem = s.mem
  page : t.page = s.page

variable {s t : State} {code : Code} {b : Bool}

theorem like_compared {n : Nat} (x y : BitVec n) : Like s (t.compared x y) ↔ Like s t :=
  ⟨fun ht => ⟨ht.stack, ht.mem, ht.page⟩, fun ht => ⟨ht.stack, ht.mem, ht.page⟩⟩

theorem exec_cmpy (s : State) : mc6809.exec ⟨.cmpy, .index 2 .s⟩ s = s.compared s.y (leftHigh s) := rfl

theorem exec_cmpd {n : Nat} (s : State) (x y : BitVec n) :
    mc6809.exec ⟨.cmpd, .index 4 .s⟩ (s.compared x y) = (s.compared x y).compared s.d (leftLow s) := rfl

theorem exec_out (ht : Like s t) : Told s (mc6809.exec ⟨.tstb, .none⟩ (mc6809.exec ⟨.leas, .index 6 .s⟩
    (mc6809.exec ⟨.ldx, .index 0 .s⟩ t))) b ↔ t.d = (if b then 1 else 0) ∧ decide (t.b = 0) = !b := by
  obtain ⟨hstack, hmem, hpage⟩ := ht
  constructor
  · intro htold
    exact ⟨htold.d, htold.zero⟩
  · rintro ⟨hd, hb⟩
    refine ⟨hd, hb, ?_, hmem, hpage, ?_⟩
    · show t.s + 6 = s.s + 6
      rw [hstack]
    · show t.wordOf (.index 0 .s) = s.wordOf (.index 0 .s)
      simp only [State.wordOf, State.address, Cpu.index, hstack, hmem]

theorem stops_jump : Stops s (.jump :: code, t) b ↔ Told s t b :=
  ⟨fun hstops => hstops.2, fun htold => ⟨⟨code, rfl⟩, htold⟩⟩

/-- `ldd @one` -/
theorem stops_yes (hone : OneRight s) (ht : Like s t) :
    Stops s (.jump :: code, mc6809.exec ⟨.tstb, .none⟩ (mc6809.exec ⟨.leas, .index 6 .s⟩
      (mc6809.exec ⟨.ldx, .index 0 .s⟩ (mc6809.exec ⟨.ldd, .direct .one 0⟩ t)))) b ↔ b = true := by
  have hpage : t.wordOf (.direct .one 0) = 1 := by
    unfold OneRight at hone
    rw [← hone]
    simp only [State.wordOf, ht.page]
  have hloaded : mc6809.exec ⟨.ldd, .direct .one 0⟩ t = t.on fun c => (c.setD 1).test (1 : BitVec 16) := by
    rw [← hpage]
    rfl
  have hd : (t.on fun c => (c.setD 1).test (1 : BitVec 16)).d = 1 := Code6800.setD_d _ _
  have hb : (t.on fun c => (c.setD 1).test (1 : BitVec 16)).b = 1 := rfl
  have hlike : Like s (t.on fun c => (c.setD 1).test (1 : BitVec 16)) := ⟨ht.stack, ht.mem, ht.page⟩
  rw [stops_jump, hloaded, exec_out hlike, hd, hb]
  cases b <;> simp

/-- `clra`, `clrb` -/
theorem stops_no (ht : Like s t) :
    Stops s (.jump :: code, mc6809.exec ⟨.tstb, .none⟩ (mc6809.exec ⟨.leas, .index 6 .s⟩
      (mc6809.exec ⟨.ldx, .index 0 .s⟩ (mc6809.exec ⟨.clrb, .none⟩ (mc6809.exec ⟨.clra, .none⟩ t))))) b ↔
      b = false := by
  have hd : (mc6809.exec ⟨.clrb, .none⟩ (mc6809.exec ⟨.clra, .none⟩ t)).d = 0 :=
    show (0 : Byte) ++ (0 : Byte) = (0 : BitVec 16) by decide
  have hb : (mc6809.exec ⟨.clrb, .none⟩ (mc6809.exec ⟨.clra, .none⟩ t)).b = 0 := rfl
  have hlike : Like s (mc6809.exec ⟨.clrb, .none⟩ (mc6809.exec ⟨.clra, .none⟩ t)) := ⟨ht.stack, ht.mem, ht.page⟩
  rw [stops_jump, exec_out hlike, hd, hb]
  cases b <;> simp

theorem holds_ra (s : State) : mc6809.holds .ra s = true := rfl

theorem stops_ite {c : Prop} [Decidable c] {x y : Code × State} :
    Stops s (if c then x else y) b ↔ if c then Stops s x b else Stops s y b := by
  split <;> rfl

theorem walk_told (hone : OneRight s) (f : Comparison) :
    Stops s (mc6809.walk f.code 16 (Image.behind f.entry f.code, s)) (f.told (leftHigh s) (leftLow s) s.y s.d) := by
  have hlike : Like s s := ⟨rfl, rfl, rfl⟩
  cases f <;>
    simp only [Comparison.code, Comparison.entry, cceql, ccnel, ccltl, ccgtl, cclteql, ccgteql, op, Image.behind,
      Processor.walk, Label.mk.injEq, reduceCtorEq, and_false, if_true, if_false, holds_ra, exec_cmpy, exec_cmpd,
      holds_compared (show 0 < 16 by decide), Cond.tells, stops_ite, stops_yes hone, stops_no, like_compared, hlike,
      Comparison.told]
  all_goals (repeat' split) <;> simp_all

/-! ## Longs by their words -/

section
variable (xh xl yh yl : BitVec 16)

theorem word_append_toNat : (xh ++ xl).toNat = xh.toNat * 2 ^ 16 + xl.toNat := by
  rw [BitVec.toNat_append, Nat.shiftLeft_eq, Nat.mul_comm, ← Nat.two_pow_add_eq_or_of_lt xl.isLt]

theorem append_ult : (xh ++ xl).ult (yh ++ yl) = (xh.ult yh || yh == xh && xl.ult yl) := by
  have hxl := xl.isLt
  have hyl := yl.isLt
  rw [Bool.eq_iff_iff]
  simp only [BitVec.ult, word_append_toNat, Bool.or_eq_true, Bool.and_eq_true, decide_eq_true_eq, beq_iff_eq,
    ← BitVec.toNat_inj]
  omega

theorem append_slt : (xh ++ xl).slt (yh ++ yl) = (xh.slt yh || yh == xh && xl.ult yl) := by
  have hxl := xl.isLt
  have hyl := yl.isLt
  rw [Bool.eq_iff_iff]
  simp only [BitVec.slt, BitVec.ult, BitVec.toInt_append, Bool.or_eq_true, Bool.and_eq_true, decide_eq_true_eq,
    beq_iff_eq, ← BitVec.toInt_inj]
  omega

theorem append_beq : ((xh ++ xl) == (yh ++ yl)) = (yh == xh && yl == xl) := by
  have hxl := xl.isLt
  have hyl := yl.isLt
  rw [Bool.eq_iff_iff]
  simp only [Bool.and_eq_true, beq_iff_eq, ← BitVec.toNat_inj, word_append_toNat]
  omega

/-- One of two values is less, or they are equal. -/
theorem slt_cases : (xh.slt yh = true ∧ yh.slt xh = false ∧ (yh == xh) = false) ∨
    (xh.slt yh = false ∧ yh.slt xh = true ∧ (yh == xh) = false) ∨
    (xh.slt yh = false ∧ yh.slt xh = false ∧ (yh == xh) = true) := by
  simp only [BitVec.slt, decide_eq_true_eq, decide_eq_false_iff_not, beq_iff_eq, beq_eq_false_iff_ne, ne_eq,
    ← BitVec.toInt_inj]
  omega

theorem ult_cases : (xh.ult yh = true ∧ yh.ult xh = false ∧ (yh == xh) = false) ∨
    (xh.ult yh = false ∧ yh.ult xh = true ∧ (yh == xh) = false) ∨
    (xh.ult yh = false ∧ yh.ult xh = false ∧ (yh == xh) = true) := by
  simp only [BitVec.ult, decide_eq_true_eq, decide_eq_false_iff_not, beq_iff_eq, beq_eq_false_iff_ne, ne_eq,
    ← BitVec.toNat_inj]
  omega

/-- The routines tell what C says but for `__ccgteql`, which asks for the low words where the left side is greater
already by the high ones. -/
theorem told_eq_answer (f : Comparison) :
    f.told xh xl yh yl = f.answer (xh ++ xl) (yh ++ yl) ↔ ¬(f = .gteql ∧ yh.slt xh = true ∧ xl.ult yl = true) := by
  have hcomm : (xh == yh) = (yh == xh) := Bool.beq_comm
  have hsigned := slt_cases xh yh
  have hunsigned := ult_cases xh yh
  have hlow := ult_cases xl yl
  cases f with
  | eql | nel => simp [Comparison.told, Comparison.answer, bne, append_beq]
  | ltl | gtl | lteql | gteql =>
    simp only [Comparison.told, Comparison.answer, BitVec.sle_eq_not_slt, append_slt, hcomm]
    rcases hsigned with ⟨h₁, h₂, h₃⟩ | ⟨h₁, h₂, h₃⟩ | ⟨h₁, h₂, h₃⟩ <;>
      rcases hlow with ⟨h₄, h₅, -⟩ | ⟨h₄, h₅, -⟩ | ⟨h₄, h₅, -⟩ <;> simp [h₁, h₂, h₃, h₄, h₅]
  | ltul | gtul | ltequl | gtequl =>
    simp only [Comparison.told, Comparison.answer, BitVec.ule_eq_not_ult, append_ult, hcomm]
    rcases hunsigned with ⟨h₁, h₂, h₃⟩ | ⟨h₁, h₂, h₃⟩ | ⟨h₁, h₂, h₃⟩ <;>
      rcases hlow with ⟨h₄, h₅, -⟩ | ⟨h₄, h₅, -⟩ | ⟨h₄, h₅, -⟩ <;> simp [h₁, h₂, h₃, h₄, h₅]

end

/-! ## Calls -/

/-- The run of a comparison up to its return. -/
theorem comparison_told {im : Linked} {a : BitVec 16} (f : Comparison) (hcode : im.Holds a f.code) (hone : OneRight s) :
    ∃ s', mc6809.Reaches im ⟨im.label f.entry, s⟩ ⟨s.wordOf (.index 0 .s), s'⟩ ∧
      Told s s' (f.told (leftHigh s) (leftLow s) s.y s.d) := by
  obtain ⟨⟨code, hjump⟩, htold⟩ := walk_told hone f
  have hclosed : Processor.Closed f.code f.code = true := by cases f <;> rfl
  have hdefines : Image.Defines f.entry f.code = true := by cases f <;> rfl
  have hgoes := Processor.goes_walk (m := mc6809) hcode hclosed 16
    (x := (Image.behind f.entry f.code, s)) (Processor.closed_behind hclosed f.entry)
  obtain ⟨a', hrest, hreach⟩ := hgoes _ (Image.holds_behind hcode hdefines)
  rw [hjump] at hrest
  refine ⟨_, ?_, htold⟩
  rw [← htold.x]
  exact hreach.trans (Processor.goes_jump hrest)

/-- Every comparison returns what C says, but `__ccgteql` where the left side has the greater high word and the
lesser low word. -/
theorem comparison_iff {im : Linked} {a : BitVec 16} (f : Comparison) (hcode : im.Holds a f.code) (hone : OneRight s)
    (hret : im.fetch (s.wordOf (.index 0 .s)) = none) :
    (∃ s', mc6809.Ends im ⟨im.label f.entry, s⟩ ⟨s.wordOf (.index 0 .s), s'⟩ ∧
      Told s s' (f.answer (leftHigh s ++ leftLow s) (s.y ++ s.d))) ↔
    ¬(f = .gteql ∧ s.y.slt (leftHigh s) = true ∧ (leftLow s).ult s.d = true) := by
  obtain ⟨s', hreach, htold⟩ := comparison_told f hcode hone
  have hends : mc6809.Ends im ⟨im.label f.entry, s⟩ ⟨s.wordOf (.index 0 .s), s'⟩ := ⟨hreach, hret⟩
  rw [← told_eq_answer]
  constructor
  · rintro ⟨s'', hends', htold'⟩
    obtain rfl : s' = s'' := congrArg Config.state (hends.unique hends')
    have hzero := htold.zero.symm.trans htold'.zero
    exact Bool.not_inj hzero
  · intro heq
    rw [← heq]
    exact ⟨s', hends, htold⟩

end Fuzemsys.Fcc.Runtime
