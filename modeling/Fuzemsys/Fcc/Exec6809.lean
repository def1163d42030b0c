import Fuzemsys.Fcc.Asm6809

/-!
# Runs of printed lines

What the helpers print does to the machine what the tracking assumes. After a comparison
the routines of makebool.s tell how it came out.
-/

open Fuzemsys.Lib

namespace Fuzemsys.Fcc.Code6800

variable {c : Cpu} {l : Line} {code code' : List Line}

@[simp]
theorem execLines_nil (c : Cpu) : execLines [] c = c := rfl

@[simp]
theorem execLines_cons (l : Line) (code : List Line) (c : Cpu) : execLines (l :: code) c = execLines code (execLine c l) := rfl

@[simp]
theorem execLines_append (code code' : List Line) (c : Cpu) :
    execLines (code ++ code') c = execLines code' (execLines code c) := List.foldl_append

/-! ## The helpers -/

/-- A line that the 6809 has. -/
def Inst.Exists : Inst → Prop
  | .tba | .tab | .xgdy | .xgdx | .bare _ => False
  | _ => True

theorem accepts_line {i : Inst} (hi : i.Exists) : accepts i.line = true := by
  cases i <;> first | rfl | exact hi.elim

@[simp] theorem setD_toRegs (c : Cpu) (d : BitVec 16) : (c.setD d).toRegs = c.toRegs.setD d := rfl
@[simp] theorem setD_s (c : Cpu) (d : BitVec 16) : (c.setD d).s = c.s := rfl
@[simp] theorem setD_mem (c : Cpu) (d : BitVec 16) : (c.setD d).mem = c.mem := rfl
@[simp] theorem setD_d (c : Cpu) (d : BitVec 16) : (c.setD d).d = d := hi_append_lo d
@[simp] theorem setD_y (c : Cpu) (d : BitVec 16) : (c.setD d).y = c.y := rfl

section
variable {w : Nat} (c : Cpu) (x y : BitVec w) (carry : Bool)

@[simp] theorem sumFlags_d : (c.sumFlags x y carry).d = c.d := rfl
@[simp] theorem sumFlags_y : (c.sumFlags x y carry).y = c.y := rfl

theorem sumFlags_carry : (c.sumFlags x y carry).carry =
    decide (2 ^ w ≤ x.toNat + y.toNat + (carryBit carry).toNat) := rfl

end

@[simp] theorem regs_setD_d (r : Regs) (d : BitVec 16) : (r.setD d).d = d := hi_append_lo d

/-- One line of a helper does what the tracking takes it to do. -/
theorem execLine_inst {B : Bare → Regs → Regs} {i : Inst} (hi : i.Exists) (c : Cpu) :
    (execLine c i.line).toRegs = execInst B c.toRegs i ∧ (execLine c i.line).s = c.s ∧
      (execLine c i.line).mem = c.mem := by
  cases i with
  | tba | tab | xgdy | xgdx => exact hi.elim
  | bare op => exact hi.elim
  | _ =>
    refine ⟨?_, rfl, rfl⟩
    simp [execLine, execInst, Inst.line, plain, immediate, Cpu.byteOf, Cpu.wordOf, Cpu.advance, Cpu.setD, Cpu.test,
      Cpu.sumFlags, Cpu.transfer, Cpu.exchange, Regs.setD, carryBit]

/-- The run of a helper. -/
theorem execLines_insts {B : Bare → Regs → Regs} {insts : List Inst} (hinsts : ∀ i ∈ insts, i.Exists) (c : Cpu) :
    (execLines (insts.map Inst.line) c).toRegs = exec B insts c.toRegs ∧
      (execLines (insts.map Inst.line) c).s = c.s ∧ (execLines (insts.map Inst.line) c).mem = c.mem := by
  induction insts generalizing c with
  | nil => exact ⟨rfl, rfl, rfl⟩
  | cons i insts ih =>
    obtain ⟨hregs, hs, hmem⟩ := execLine_inst (B := B) (hinsts i List.mem_cons_self) c
    obtain ⟨hregs', hs', hmem'⟩ := ih (fun j hj => hinsts j (List.mem_cons_of_mem i hj)) (execLine c i.line)
    rw [List.map_cons, execLines_cons, exec_cons]
    exact ⟨hregs'.trans (congrArg (exec B insts) hregs), hs'.trans hs, hmem'.trans hmem⟩

/-! ## After a comparison -/

/-- A difference that does not fit changes its sign. -/
theorem sign_of_difference {m x y : Int} (hx : x < m) (hx' : -m ≤ x) (hy : y < m) (hy' : -m ≤ y) :
    ¬ ((if (x - y) % (2 * m) < (2 * m + 1) / 2 then (x - y) % (2 * m) else (x - y) % (2 * m) - 2 * m) < 0 ↔
      (m ≤ x - y ∨ x - y < -m)) ↔ x < y := by
  have hmod : ((x - y) % (2 * m) = x - y ∧ 0 ≤ x - y) ∨ ((x - y) % (2 * m) = x - y + 2 * m ∧ x - y < 0) := by
    by_cases hle : 0 ≤ x - y
    · exact .inl ⟨Int.emod_eq_of_lt hle (by omega), hle⟩
    · rw [← Int.add_emod_right]
      exact .inr ⟨Int.emod_eq_of_lt (by omega) (by omega), by omega⟩
  split <;> omega

/-- The sign of a difference, and whether it overflowed, tell which is less. -/
theorem negative_overflow {w : Nat} (hw : 0 < w) (x y : BitVec w) :
    ((x - y).msb != x.ssubOverflow y) = x.slt y := by
  obtain ⟨n, rfl⟩ := Nat.exists_eq_succ_of_ne_zero hw.ne'
  have hx := BitVec.toInt_lt (x := x)
  have hx' := BitVec.le_toInt x
  have hy := BitVec.toInt_lt (x := y)
  have hy' := BitVec.le_toInt y
  have hpow : ((2 ^ n.succ : Nat) : Int) = 2 * 2 ^ n := by
    push_cast
    rw [Int.pow_succ, Int.mul_comm]
  have hover : x.ssubOverflow y = decide (2 ^ n ≤ x.toInt - y.toInt ∨ x.toInt - y.toInt < -2 ^ n) := by
    simp [BitVec.ssubOverflow]
  have hsign : (x - y).msb = decide ((x.toInt - y.toInt).bmod (2 ^ n.succ) < 0) := by
    rw [BitVec.msb_eq_toInt, BitVec.toInt_sub]
  rw [hover, hsign, BitVec.slt_eq_decide, Bool.eq_iff_iff]
  simp only [bne_iff_ne, ne_eq, decide_eq_decide, decide_eq_true_eq]
  unfold Int.bmod
  rw [hpow]
  exact sign_of_difference hx hx' hy hy'

/-- D is a truth value, and Z says so too. -/
def Truth (c : Cpu) (b : Bool) : Prop := c.d = (if b then 1 else 0) ∧ c.zero = !b

/-- What a routine tells of the two sides of a comparison. -/
def BoolRoutine.tells {w : Nat} (f : BoolRoutine) (x y : BitVec w) : Bool :=
  match f with
  | booleq => x == y
  | boolne => x != y
  | boolle => x.sle y
  | boollt => x.slt y
  | boolge => y.sle x
  | boolgt => y.slt x
  | boolule => x.ule y
  | boolult => x.ult y
  | booluge => y.ule x
  | boolugt => y.ult x

theorem truth_ret1 (c : Cpu) : Truth c.ret1 true := ⟨show (0 : Byte) ++ (1 : Byte) = (1 : BitVec 16) by decide, rfl⟩

theorem truth_ret0 (c : Cpu) : Truth c.ret0 false := ⟨show (0 : Byte) ++ (0 : Byte) = (0 : BitVec 16) by decide, rfl⟩

theorem truth_rolled (c : Cpu) : Truth c.rolled c.carry := by
  unfold Truth Cpu.rolled
  cases c.carry with
  | false => exact ⟨show (0 : Byte) ++ (0 : Byte) = (0 : BitVec 16) by decide, rfl⟩
  | true => exact ⟨show (0 : Byte) ++ (1 : Byte) = (1 : BitVec 16) by decide, rfl⟩

/-- A routine from what the flags say: equal, less with a sign, less without one. -/
theorem routine_flags (c : Cpu) {equal less below : Bool} (hzero : c.zero = equal)
    (hless : (c.negative != c.overflow) = less) (hcarry : c.carry = below) (hnot : equal = true → less = false ∧ below = false)
    (f : BoolRoutine) : Truth (c.routine f) (match f with
      | .booleq => equal
      | .boolne => !equal
      | .boolle => less || equal
      | .boollt => less
      | .boolge => !less
      | .boolgt => !(less || equal)
      | .boolule => below || equal
      | .boolult => below
      | .booluge => !below
      | .boolugt => !(below || equal)) := by
  have hnotless : (c.negative == c.overflow) = !less := by
    rw [← hless, bne, Bool.not_not]
  have hrolled := truth_rolled c
  rw [hcarry] at hrolled
  have htrue := truth_ret1 c
  have hfalse := truth_ret0 c
  cases equal with
  | true =>
    obtain ⟨rfl, rfl⟩ := hnot rfl
    cases f <;> simp [Cpu.routine, hzero, hless, hcarry, htrue, hfalse, hrolled]
  | false =>
    cases less <;> cases below <;> cases f <;>
      simp [Cpu.routine, hzero, hless, hnotless, hcarry, htrue, hfalse, hrolled]

/-- From the flags of a comparison the routines make its truth value. -/
theorem routine_truth {w : Nat} (hw : 0 < w) (c : Cpu) (x y : BitVec w) (f : BoolRoutine) :
    Truth ((c.differenceFlags x y).routine f) (f.tells x y) := by
  have hzero : (c.differenceFlags x y).zero = (x == y) := by
    show decide (x - y = 0) = (x == y)
    rw [Bool.eq_iff_iff, decide_eq_true_eq, beq_iff_eq]
    exact sub_eq_zero
  have hnot : (x == y) = true → x.slt y = false ∧ x.ult y = false := by
    intro heq
    rw [beq_iff_eq] at heq
    subst heq
    exact ⟨decide_eq_false (lt_irrefl _), decide_eq_false (lt_irrefl _)⟩
  have hbelow : (c.differenceFlags x y).carry = x.ult y := rfl
  have htruth := routine_flags _ hzero (negative_overflow hw x y) hbelow hnot f
  have hsle := BitVec.sle_eq_slt_or_eq (x := x) (y := y)
  have hule : x.ule y = (x.ult y || x == y) := by
    rw [Bool.eq_iff_iff]
    simp only [BitVec.ule, BitVec.ult, Bool.or_eq_true, decide_eq_true_eq, beq_iff_eq, ← BitVec.toNat_inj]
    omega
  cases f with
  | boolle =>
    rw [BoolRoutine.tells, hsle]
    exact htruth
  | boolule =>
    rw [BoolRoutine.tells, hule]
    exact htruth
  | boolge =>
    have hge : y.sle x = !x.slt y := BitVec.sle_eq_not_slt
    rw [BoolRoutine.tells, hge]
    exact htruth
  | booluge =>
    have hge : y.ule x = !x.ult y := BitVec.ule_eq_not_ult y x
    rw [BoolRoutine.tells, hge]
    exact htruth
  | boolgt =>
    have hgt : y.slt x = !x.sle y := by rw [BitVec.sle_eq_not_slt, Bool.not_not]
    rw [hsle] at hgt
    rw [BoolRoutine.tells, hgt]
    exact htruth
  | boolugt =>
    have hgt : y.ult x = !x.ule y := by rw [BitVec.ule_eq_not_ult, Bool.not_not]
    rw [hule] at hgt
    rw [BoolRoutine.tells, hgt]
    exact htruth
  | _ => exact htruth

end Fuzemsys.Fcc.Code6800
