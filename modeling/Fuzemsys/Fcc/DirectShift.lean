import Fuzemsys.Fcc.DirectProofs

/-!
# Shifts and multiplications by a constant

A multiplication pushes D for each bit that is set below the highest one, shifts, and adds up
what it pushed.
-/

open Fuzemsys.Lib

namespace Fuzemsys.Fcc.Code6800

open Fuzemsys.Fcc.Tree

variable {c : Cpu} {t : Track} {n : Nat}

/-! ## One bit -/

theorem run_double (c : Cpu) : (execLines [plain .lslb, plain .rola] c).d = c.d <<< 1 := by
  apply BitVec.eq_of_getLsbD_eq
  intro i hi
  simp only [execLines_cons, execLines_nil, execLine, plain, Cpu.test, Regs.d, BitVec.getLsbD_append,
    BitVec.getLsbD_shiftLeft, BitVec.getLsbD_or, carryBit, BitVec.msb_eq_getLsbD_last]
  grind

theorem run_halve (c : Cpu) : (execLines [plain .lsra, plain .rorb] c).d = c.d >>> 1 := by
  apply BitVec.eq_of_getLsbD_eq
  intro i hi
  simp only [execLines_cons, execLines_nil, execLine, plain, Cpu.test, Regs.d, BitVec.getLsbD_append,
    BitVec.getLsbD_ushiftRight, BitVec.getLsbD_shiftLeft, BitVec.getLsbD_or, carryBit]
  grind

theorem run_halve_signed (c : Cpu) : (execLines [plain .asra, plain .rorb] c).d = c.d.sshiftRight 1 := by
  have hsign : c.d.msb = c.a.msb := by
    rw [Regs.d, BitVec.msb_append]
    rfl
  apply BitVec.eq_of_getLsbD_eq
  intro i hi
  rw [BitVec.getLsbD_sshiftRight, hsign]
  simp only [execLines_cons, execLines_nil, execLine, plain, Cpu.test, Regs.d, BitVec.getLsbD_append,
    BitVec.getLsbD_ushiftRight, BitVec.getLsbD_shiftLeft, BitVec.getLsbD_or, BitVec.getLsbD_sshiftRight, carryBit]
  grind

/-! ## Repeated -/

theorem run_repeat {code : List Line} {g : BitVec 16 → BitVec 16} (hcode : ∀ c, (execLines code c).d = g c.d) (n : Nat)
    (c : Cpu) : (execLines (List.replicate n code).flatten c).d = g^[n] c.d := by
  induction n generalizing c with
  | zero => rfl
  | succ n ih =>
    rw [List.replicate_succ, List.flatten_cons, execLines_append, ih, hcode]
    rfl

theorem iterate_shiftLeft {w : Nat} (x : BitVec w) (n : Nat) : (fun x : BitVec w => x <<< 1)^[n] x = x <<< n := by
  induction n generalizing x with
  | zero => exact (BitVec.shiftLeft_zero x).symm
  | succ n ih => rw [Function.iterate_succ_apply, ih, ← BitVec.shiftLeft_add, Nat.add_comm]

theorem iterate_ushiftRight {w : Nat} (x : BitVec w) (n : Nat) : (fun x : BitVec w => x >>> 1)^[n] x = x >>> n := by
  induction n generalizing x with
  | zero => exact (BitVec.ushiftRight_zero x).symm
  | succ n ih => rw [Function.iterate_succ_apply, ih, ← BitVec.shiftRight_add, Nat.add_comm]

theorem iterate_sshiftRight {w : Nat} (x : BitVec w) (n : Nat) :
    (fun x : BitVec w => x.sshiftRight 1)^[n] x = x.sshiftRight n := by
  induction n generalizing x with
  | zero => exact BitVec.sshiftRight_zero.symm
  | succ n ih => rw [Function.iterate_succ_apply, ih, ← BitVec.sshiftRight_add, Nat.add_comm]

theorem run_lslb (n : Nat) (c : Cpu) : (execLines (List.replicate n (plain .lslb)) c).b = c.b <<< n := by
  induction n generalizing c with
  | zero => exact (BitVec.shiftLeft_zero _).symm
  | succ n ih =>
    rw [List.replicate_succ, execLines_cons, ih, Nat.add_comm, BitVec.shiftLeft_add]
    rfl

theorem run_lsrb (n : Nat) (c : Cpu) : (execLines (List.replicate n (plain .lsrb)) c).b = c.b >>> n ∧
    (execLines (List.replicate n (plain .lsrb)) c).a = c.a := by
  induction n generalizing c with
  | zero => exact ⟨(BitVec.ushiftRight_zero _).symm, rfl⟩
  | succ n ih =>
    obtain ⟨hb, ha⟩ := ih (execLine c (plain .lsrb))
    rw [List.replicate_succ, execLines_cons, hb, ha, Nat.add_comm, BitVec.shiftRight_add]
    exact ⟨rfl, rfl⟩

/-! ## Multiplications -/

theorem mulLoop_pops (n : Nat) : (mulLoop n).2 ≤ n / 2 := by
  induction n using mulLoop.induct with
  | case1 n hn code pops hloop hodd ih =>
    rw [hloop] at ih
    rw [mulLoop, if_pos hn, hloop]
    simp only [hodd, if_true]
    omega
  | case2 n hn code pops hloop hodd ih =>
    rw [hloop] at ih
    rw [mulLoop, if_pos hn, hloop]
    simp only [hodd, if_false]
    omega
  | case3 n hn =>
    rw [mulLoop, if_neg hn]
    exact Nat.zero_le _

/-- Nothing changes but up to `m` words below the stack. -/
def Frame (m : Nat) (c c' : Cpu) : Prop :=
  c'.s = c.s ∧ ∀ a, (a - c.s).toNat + 2 * m < 2 ^ 16 → c'.mem a = c.mem a

/-- An address outside of the words below one that is pushed. -/
theorem outside {a s : BitVec 16} {m : Nat} (ha : (a - s).toNat + 2 * (m + 1) < 2 ^ 16) :
    a ≠ s - 1 ∧ a ≠ s - 2 ∧ (a - (s - 2)).toNat + 2 * m < 2 ^ 16 := by
  bv_omega

theorem pushWord_mem (c : Cpu) (v a : BitVec 16) : (c.pushWord v).mem a =
    if a = c.s - 2 then hiByte v else if a = c.s - 1 then loByte v else c.mem a := rfl

theorem pushWord_s (c : Cpu) (v : BitVec 16) : (c.pushWord v).s = c.s - 2 := rfl

/-- A word that was pushed is read back. -/
theorem wordAt_pushed {c c₁ : Cpu} {v : BitVec 16} (hhigh : c₁.mem (c.s - 2) = (c.pushWord v).mem (c.s - 2))
    (hlow : c₁.mem (c.s - 2 + 1) = (c.pushWord v).mem (c.s - 2 + 1)) : c₁.wordAt (c.s - 2) = v := by
  have hnext : c.s - 2 + 1 = c.s - 1 := by bv_omega
  have hne : c.s - 1 ≠ c.s - 2 := by bv_omega
  rw [pushWord_mem, if_pos rfl] at hhigh
  rw [hnext, pushWord_mem, if_neg hne, if_pos rfl] at hlow
  rw [Cpu.wordAt, hnext, hhigh, hlow, hi_append_lo]

/-- What is pushed is still there after code that keeps the frame, and is popped. -/
theorem run_pushed {m : Nat} {k : BitVec 16 → BitVec 16} (code : List Line) (hm : 2 * m + 2 < 2 ^ 16)
    (hcode : ∀ c, Frame m c (execLines code c) ∧ (execLines code c).d = k c.d) (c : Cpu) :
    let c' := execLines ((⟨.pshs, .list .d⟩ :: code) ++ [⟨.addd, .postInc2 .s⟩]) c
    Frame (m + 1) c c' ∧ c'.d = k c.d + c.d := by
  intro c'
  obtain ⟨⟨hs, hmem⟩, hd⟩ := hcode (c.pushWord c.d)
  set c₁ := execLines code (c.pushWord c.d) with hc₁
  have hc' : c' = execLine c₁ ⟨.addd, .postInc2 .s⟩ := by
    rw [hc₁]
    exact execLines_append _ _ _
  rw [pushWord_s] at hs hmem
  have hword : c₁.wordAt c₁.s = c.d := by
    rw [hs]
    exact wordAt_pushed (hmem _ (by bv_omega)) (hmem _ (by bv_omega))
  refine ⟨⟨?_, ?_⟩, ?_⟩
  · rw [hc']
    show c₁.s + 2 = c.s
    rw [hs]
    exact BitVec.sub_add_cancel _ _
  · intro a ha
    obtain ⟨hlow, hhigh, ha⟩ := outside ha
    rw [hc']
    show c₁.mem a = c.mem a
    rw [hmem a ha, pushWord_mem, if_neg hhigh, if_neg hlow]
  · rw [hc']
    show (c₁.setD (c₁.d + c₁.wordAt c₁.s)).d = _
    rw [setD_d, hword, hd]
    rfl

theorem Frame.after_double {m : Nat} {c c' : Cpu} (h : Frame m (execLines [plain .lslb, plain .rola] c) c') : Frame m c c' := h

/-- Twice, with a bit below. -/
theorem double_bit (d : BitVec 16) (n : Nat) :
    (d <<< 1) * BitVec.ofNat 16 (n / 2) + (if n % 2 = 1 then d else 0) = d * BitVec.ofNat 16 n := by
  have hdouble : d <<< 1 = d * 2 := by
    rw [BitVec.shiftLeft_eq_mul_twoPow]
    rfl
  have hn : BitVec.ofNat 16 n = 2 * BitVec.ofNat 16 (n / 2) + BitVec.ofNat 16 (n % 2) := by
    conv_lhs => rw [← Nat.div_add_mod n 2]
    rw [BitVec.ofNat_add, BitVec.ofNat_mul]
    rfl
  rw [hdouble, hn]
  rcases Nat.mod_two_eq_zero_or_one n with hbit | hbit
  · rw [hbit, if_neg (by decide), show BitVec.ofNat 16 0 = 0 from rfl]
    ring
  · rw [hbit, if_pos rfl, show BitVec.ofNat 16 1 = 1 from rfl]
    ring

theorem run_mulCode (n : Nat) (hn : 0 < n) (hwide : n < 2 ^ 16) (c : Cpu) :
    Frame (mulLoop n).2 c (execLines (mulCode n) c) ∧ (execLines (mulCode n) c).d = c.d * BitVec.ofNat 16 n := by
  induction n using mulLoop.induct generalizing c with
  | case1 n hlarge code pops hloop hodd ih =>
    have hpops := mulLoop_pops (n / 2)
    have hcode : mulCode n = (⟨.pshs, .list .d⟩ :: ([plain .lslb, plain .rola] ++ mulCode (n / 2))) ++
        [⟨.addd, .postInc2 .s⟩] := by
      rw [mulCode, mulCode, mulLoop, if_pos hlarge, hloop]
      simp only [hodd, if_true, List.replicate_succ', List.cons_append, List.append_assoc, List.nil_append]
    have hdeep : (mulLoop n).2 = (mulLoop (n / 2)).2 + 1 := by
      conv_lhs => rw [mulLoop, if_pos hlarge, hloop]
      simp only [hodd, if_true, hloop]
    have hpushed := run_pushed (m := (mulLoop (n / 2)).2)
      (k := fun d => (d <<< 1) * BitVec.ofNat 16 (n / 2)) ([plain .lslb, plain .rola] ++ mulCode (n / 2)) (by omega) (fun c => by
        obtain ⟨hframe, hd⟩ := ih (by omega) (by omega) (execLines [plain .lslb, plain .rola] c)
        rw [execLines_append, hd, run_double]
        exact ⟨hframe.after_double, rfl⟩) c
    have hbit := double_bit c.d n
    rw [if_pos hodd] at hbit
    rw [hcode, hdeep, ← hbit]
    exact hpushed
  | case2 n hlarge code pops hloop heven ih =>
    have hcode : mulCode n = [plain .lslb, plain .rola] ++ mulCode (n / 2) := by
      rw [mulCode, mulCode, mulLoop, if_pos hlarge, hloop]
      simp only [heven, if_false, List.cons_append, List.nil_append]
    have hdeep : (mulLoop n).2 = (mulLoop (n / 2)).2 := by
      conv_lhs => rw [mulLoop, if_pos hlarge, hloop]
      simp only [heven, if_false, hloop]
    obtain ⟨hframe, hd⟩ := ih (by omega) (by omega) (execLines [plain .lslb, plain .rola] c)
    have hbit := double_bit c.d n
    rw [if_neg heven, add_zero] at hbit
    rw [hcode, hdeep, execLines_append, hd, run_double, hbit]
    exact ⟨hframe.after_double, rfl⟩
  | case3 n hsmall =>
    obtain rfl : n = 1 := by omega
    rw [mulCode, mulLoop, if_neg hsmall]
    exact ⟨⟨rfl, fun _ _ => rfl⟩, (BitVec.mul_one _).symm⟩

end Fuzemsys.Fcc.Code6800
