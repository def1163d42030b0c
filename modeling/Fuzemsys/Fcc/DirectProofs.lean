import Fuzemsys.Fcc.Direct6809

/-!
# What a constant operand leaves

One lemma for each piece of code that `gen_direct` prints.
-/

open Fuzemsys.Lib

namespace Fuzemsys.Fcc.Code6800

open Fuzemsys.Fcc.Tree

variable {c : Cpu} {t : Track} {f g : Printer} {n : Nat}

/-! ## Printers -/

/-- The assembler takes whatever is printed. -/
def Printer.Accepted (f : Printer) : Prop := ∀ t, ∀ l ∈ (f t).1, accepts l = true

theorem accepted_andThen (hf : f.Accepted) (hg : g.Accepted) : (Printer.andThen f g).Accepted := by
  intro t l hl
  rcases List.mem_append.mp hl with hl | hl
  · exact hf t l hl
  · exact hg _ l hl

theorem accepted_printf {code : List Line} (hcode : ∀ l ∈ code, accepts l = true) : (printf code).Accepted :=
  fun _ => hcode

theorem accepted_note (u : Track → Track) : (note u).Accepted := by
  intro t l hl
  cases hl

theorem accepted_print {f : Helper} (hf : ∀ t, ∀ i ∈ (f t).1, i.Exists) : f.print.Accepted := by
  intro t l hl
  obtain ⟨i, hi, rfl⟩ := List.mem_map.mp hl
  exact accepts_line (hf t i hi)

theorem accepted_when {p : Prop} [Decidable p] (hf : f.Accepted) : (Printer.when p f).Accepted := by
  unfold Printer.when
  split
  · exact hf
  · exact accepted_printf (by simp)

@[simp]
theorem run_andThen (f g : Printer) (t : Track) (c : Cpu) :
    execLines (Printer.andThen f g t).1 c = execLines (g (f t).2).1 (execLines (f t).1 c) := execLines_append _ _ _

@[simp] theorem run_printf (code : List Line) (t : Track) : (printf code t).1 = code := rfl
@[simp] theorem run_note (u : Track → Track) (t : Track) : (note u t).1 = [] := rfl

theorem run_when {p : Prop} [Decidable p] (f : Printer) (t : Track) (c : Cpu) :
    execLines (Printer.when p f t).1 c = if p then execLines (f t).1 c else c := by
  unfold Printer.when
  split <;> rfl

/-! ## Bytes of a constant -/

section
variable {m : Nat} (v : BitVec m)

theorem setWidth_byte : v.setWidth 8 = byteAt v 0 := by
  unfold byteAt
  rw [Nat.mul_zero, BitVec.ushiftRight_zero]

theorem setWidth_word : v.setWidth 16 = byteAt v 1 ++ byteAt v 0 := by
  apply BitVec.eq_of_getLsbD_eq
  intro i hi
  rw [BitVec.getLsbD_append]
  simp [byteAt]
  grind

theorem setWidth_long : v.setWidth 32 = (byteAt v 3 ++ byteAt v 2) ++ (byteAt v 1 ++ byteAt v 0) := by
  apply BitVec.eq_of_getLsbD_eq
  intro i hi
  rw [BitVec.getLsbD_append, BitVec.getLsbD_append, BitVec.getLsbD_append]
  simp [byteAt]
  grind

end

@[simp] theorem hiByte_append (a b : Byte) : hiByte (a ++ b) = a := by
  apply BitVec.eq_of_getLsbD_eq
  intro i hi
  simp [hiByte]
  grind

@[simp] theorem loByte_append (a b : Byte) : loByte (a ++ b) = b := by
  apply BitVec.eq_of_getLsbD_eq
  intro i hi
  simp [loByte]
  grind

/-! ## Sums -/

theorem append_toNat {k m : Nat} (a : BitVec k) (b : BitVec m) : (a ++ b).toNat = a.toNat * 2 ^ m + b.toNat := by
  rw [BitVec.toNat_append, Nat.shiftLeft_eq, Nat.mul_comm, ← Nat.two_pow_add_eq_or_of_lt b.isLt]

theorem carryBit_toNat (b : Bool) : (carryBit b).toNat = if b then 1 else 0 := by
  cases b <;> rfl

/-- Bytes with a carry make a word with a carry. -/
theorem adc_word (x v : BitVec 16) (carry : Bool) :
    ((hiByte x + hiByte v + carryBit (decide (2 ^ 8 ≤ (loByte x).toNat + (loByte v).toNat + (carryBit carry).toNat))) ++
      (loByte x + loByte v + carryBit carry) : BitVec 16) = x + v + (carryBit carry).setWidth 16 := by
  have hx := x.isLt
  have hv := v.isLt
  apply BitVec.eq_of_toNat_eq
  rw [append_toNat]
  simp only [BitVec.toNat_add, BitVec.toNat_setWidth, hiByte_toNat, loByte_toNat, carryBit_toNat, decide_eq_true_eq]
  split <;> split <;> omega

/-- Words with a carry make a long. -/
theorem add_long (y d hi lo : BitVec 16) :
    ((y + hi + (carryBit (decide (2 ^ 16 ≤ d.toNat + lo.toNat))).setWidth 16) ++ (d + lo) : BitVec 32) =
      (y ++ d) + (hi ++ lo) := by
  have hy := y.isLt
  have hd := d.isLt
  have hhi := hi.isLt
  have hlo := lo.isLt
  apply BitVec.eq_of_toNat_eq
  rw [append_toNat, BitVec.toNat_add (x := y ++ d), append_toNat y d, append_toNat hi lo]
  simp only [BitVec.toNat_add, BitVec.toNat_setWidth, carryBit_toNat, decide_eq_true_eq]
  split <;> omega

/-- No word is added without a carry. -/
theorem add_upper (y d hi : BitVec 16) : ((y + hi) ++ d : BitVec 32) = (y ++ d) + (hi ++ (0 : BitVec 16)) := by
  have hzero := add_long y d hi 0
  have hd := d.isLt
  have hnone : ¬ 2 ^ 16 ≤ d.toNat + (0 : BitVec 16).toNat := by
    rw [show (0 : BitVec 16).toNat = 0 from rfl]
    omega
  rw [decide_eq_false hnone] at hzero
  rw [← hzero]
  simp [carryBit]

section
variable {h : Host} (v : BitVec h.longBits)

theorem run_addd {w : BitVec 16} (hw : w ≠ 0) (t : Track) (c : Cpu) :
    execLines ((addDConst .m6809 w).print t).1 c = (c.setD (c.d + w)).sumFlags c.d w false := by
  unfold Helper.print
  rw [addDConst_eq hw]
  simp [Inst.line, immediate, execLine, Cpu.wordOf, Cpu.advance]

theorem run_addDConst (w : BitVec 16) (t : Track) (c : Cpu) :
    (execLines ((addDConst .m6809 w).print t).1 c).d = c.d + w := by
  by_cases hw : w = 0
  · subst hw
    exact (BitVec.add_zero _).symm
  · rw [run_addd hw]
    exact hi_append_lo _

/-- The carry of the lower half goes into the upper one. -/
theorem run_addUpper (t : Track) (c : Cpu) : (execLines (addUpper v t).1 c).long =
    (c.y + (byteAt v 3 ++ byteAt v 2) + (carryBit c.carry).setWidth 16) ++ c.d := by
  have hword := adc_word c.y (byteAt v 3 ++ byteAt v 2) c.carry
  rw [hiByte_append, loByte_append] at hword
  rw [← hword]
  simp [addUpper, Helper.print, swapDY, Target.m6809, emit, Inst.line, immediate, execLine, Cpu.exchange, Cpu.setD,
    Cpu.byteOf, Cpu.advance, Cpu.sumFlags, Cpu.long, Regs.d]

/-- Both halves, with the carry between them. -/
theorem run_addLong (t : Track) (c : Cpu) : (execLines (addLong v t).1 c).long = c.long + v.setWidth 32 := by
  have hlong : v.setWidth 32 = (byteAt v 3 ++ byteAt v 2) ++ v.setWidth 16 := by rw [setWidth_long, setWidth_word]
  unfold addLong
  split
  · next hlow =>
    have hsum := add_long c.y c.d (byteAt v 3 ++ byteAt v 2) (v.setWidth 16)
    rw [run_andThen, run_addUpper, run_addd hlow, hlong, Cpu.long, ← hsum]
    simp only [sumFlags_d, sumFlags_y, sumFlags_carry, setD_d, setD_y, carryBit_toNat, Bool.false_eq_true, if_false,
      Nat.add_zero]
  · next hlow =>
    have hupper : BitVec.ofNat 16 ((v >>> 16).setWidth h.intBits).toNat = byteAt v 3 ++ byteAt v 2 := by
      rw [BitVec.ofNat_toNat, BitVec.setWidth_setWidth_of_le _ h.int_wide, setWidth_word]
      simp only [byteAt, ← BitVec.shiftRight_add]
    have hsum := add_upper c.y c.d (byteAt v 3 ++ byteAt v 2)
    rw [hlong, not_not.mp hlow, Cpu.long, Cpu.long, ← hsum, ← hupper]
    rfl

end

/-! ## Bit operations, byte by byte -/

/-- Code that changes A and B by functions of their own. -/
def Changes (code : List Line) (onA onB : Byte → Byte) : Prop :=
  ∀ c, (execLines code c).a = onA c.a ∧ (execLines code c).b = onB c.b ∧ (execLines code c).y = c.y

theorem Changes.append {code code' : List Line} {ga gb ga' gb' : Byte → Byte} (hcode : Changes code ga gb)
    (hcode' : Changes code' ga' gb') : Changes (code ++ code') (ga' ∘ ga) (gb' ∘ gb) := by
  intro c
  obtain ⟨ha, hb, hy⟩ := hcode c
  obtain ⟨ha', hb', hy'⟩ := hcode' (execLines code c)
  rw [execLines_append]
  exact ⟨ha'.trans (congrArg ga' ha), hb'.trans (congrArg gb' hb), hy'.trans hy⟩

theorem changes_nil {ga gb : Byte → Byte} (ha : ∀ x, ga x = x) (hb : ∀ x, gb x = x) : Changes [] ga gb :=
  fun c => ⟨(ha c.a).symm, (hb c.b).symm, rfl⟩

section
variable (v : Byte)

theorem ofNat_byte : BitVec.ofNat 8 v.toNat = v := by
  rw [BitVec.ofNat_toNat, BitVec.setWidth_eq]

theorem and_ones (x : Byte) : x &&& 0xFF = x := BitVec.and_allOnes

theorem changes_andb : Changes (andByte .andb .clrb v) id (· &&& v) := by
  unfold andByte
  split
  · next hv =>
    subst hv
    exact changes_nil (fun _ => rfl) and_ones
  · split
    · intro c
      refine ⟨rfl, ?_, rfl⟩
      exact congrArg (c.b &&& ·) (ofNat_byte v)
    · next hv =>
      rw [not_not.mp hv]
      exact fun c => ⟨rfl, BitVec.and_zero.symm, rfl⟩

theorem changes_anda : Changes (andByte .anda .clra v) (· &&& v) id := by
  unfold andByte
  split
  · next hv =>
    subst hv
    exact changes_nil and_ones (fun _ => rfl)
  · split
    · intro c
      refine ⟨?_, rfl, rfl⟩
      exact congrArg (c.a &&& ·) (ofNat_byte v)
    · next hv =>
      rw [not_not.mp hv]
      exact fun c => ⟨BitVec.and_zero.symm, rfl, rfl⟩

theorem changes_andUpper_b : Changes (andUpper .andb .clrb v) id (· &&& v) := by
  unfold andUpper
  split
  · exact fun c => ⟨rfl, congrArg (c.b &&& ·) (ofNat_byte v), rfl⟩
  · next hv =>
    rw [not_not.mp hv]
    exact fun c => ⟨rfl, BitVec.and_zero.symm, rfl⟩

theorem changes_andUpper_a : Changes (andUpper .anda .clra v) (· &&& v) id := by
  unfold andUpper
  split
  · exact fun c => ⟨congrArg (c.a &&& ·) (ofNat_byte v), rfl, rfl⟩
  · next hv =>
    rw [not_not.mp hv]
    exact fun c => ⟨BitVec.and_zero.symm, rfl, rfl⟩

theorem changes_orb : Changes (orByte .orb v) id (· ||| v) := by
  unfold orByte
  split
  · exact fun c => ⟨rfl, congrArg (c.b ||| ·) (ofNat_byte v), rfl⟩
  · next hv =>
    rw [not_not.mp hv]
    exact changes_nil (fun _ => rfl) fun _ => BitVec.or_zero

theorem changes_ora : Changes (orByte .ora v) (· ||| v) id := by
  unfold orByte
  split
  · exact fun c => ⟨congrArg (c.a ||| ·) (ofNat_byte v), rfl, rfl⟩
  · next hv =>
    rw [not_not.mp hv]
    exact changes_nil (fun _ => BitVec.or_zero) fun _ => rfl

theorem xor_ones (x : Byte) : x ^^^ 0xFF = ~~~x := BitVec.xor_allOnes

theorem changes_eorb : Changes (eorByte .eorb .comb v) id (· ^^^ v) := by
  unfold eorByte
  split
  · next hv =>
    subst hv
    exact fun c => ⟨rfl, (xor_ones c.b).symm, rfl⟩
  · split
    · exact fun c => ⟨rfl, congrArg (c.b ^^^ ·) (ofNat_byte v), rfl⟩
    · next hv =>
      rw [not_not.mp hv]
      exact changes_nil (fun _ => rfl) fun _ => BitVec.xor_zero

theorem changes_eora : Changes (eorByte .eora .coma v) (· ^^^ v) id := by
  unfold eorByte
  split
  · next hv =>
    subst hv
    exact fun c => ⟨(xor_ones c.a).symm, rfl, rfl⟩
  · split
    · exact fun c => ⟨congrArg (c.a ^^^ ·) (ofNat_byte v), rfl, rfl⟩
    · next hv =>
      rw [not_not.mp hv]
      exact changes_nil (fun _ => BitVec.xor_zero) fun _ => rfl

end

/-- Code for Y changes its bytes and leaves D. -/
theorem run_swapped {code : List Line} {ga gb : Byte → Byte} (hcode : Changes code ga gb) (t : Track) (c : Cpu) :
    (execLines (swapped code t).1 c).long = (ga (hiByte c.y) ++ gb (loByte c.y)) ++ c.d := by
  have hexchange (t : Track) (c : Cpu) : execLines ((swapDY .m6809).print t).1 c = { c.setD c.y with y := c.d } := rfl
  unfold swapped
  rw [run_andThen, run_andThen, hexchange, hexchange, run_printf]
  obtain ⟨ha, hb, hy⟩ := hcode { c.setD c.y with y := c.d }
  generalize execLines code _ = c' at ha hb hy
  show c'.d ++ (hiByte c'.y ++ loByte c'.y) = _
  rw [hi_append_lo, hy, Regs.d, ha, hb]
  rfl

/-- The shape of the three bit operations. -/
theorem run_bits {lo hi upper : List Line} {g₀ g₁ g₂ g₃ : Byte → Byte} (hlo : Changes lo id g₀) (hhi : Changes hi g₁ id)
    (hupper : Changes upper g₃ g₂) {note₀ : Printer} (hnote : ∀ t, (note₀ t).1 = []) (note₁ : Track → Track) (s : Nat)
    (t : Track) (c : Cpu) {c' : Cpu}
    (hc' : c' = execLines (Printer.andThen (printf lo) (Printer.andThen note₀ (Printer.andThen
      (Printer.when (s ≥ 2) (Printer.andThen (printf hi) (note note₁))) (Printer.when (s = 4) (swapped upper)))) t).1 c) :
    (s = 1 → c'.b = g₀ c.b) ∧ (s = 2 → c'.d = g₁ c.a ++ g₀ c.b) ∧
      (s = 4 → c'.long = (g₃ (hiByte c.y) ++ g₂ (loByte c.y)) ++ (g₁ c.a ++ g₀ c.b)) := by
  obtain ⟨ha, hb, hy⟩ := hlo c
  obtain ⟨ha', hb', hy'⟩ := hhi (execLines lo c)
  rw [run_andThen, run_andThen, run_andThen, hnote, execLines_nil, run_when, run_when, run_printf] at hc'
  subst hc'
  refine ⟨?_, ?_, ?_⟩
  · rintro rfl
    exact hb
  · rintro rfl
    rw [if_neg (by decide), if_pos (by decide), run_andThen, run_printf, run_note, execLines_nil, Regs.d, ha', hb', ha, hb]
    rfl
  · rintro rfl
    rw [if_pos rfl, if_pos (by decide), run_andThen, run_printf, run_note, execLines_nil, run_swapped hupper, hy', hy,
      Regs.d, ha', hb', ha, hb]
    rfl

end Fuzemsys.Fcc.Code6800
