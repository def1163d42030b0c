import Fuzemsys.Fcc.DirectShift

/-!
# Each operator with a constant

What is printed for an operator is accepted and leaves the result of C, where it does.
-/

open Fuzemsys.Lib

namespace Fuzemsys.Fcc.Code6800

open Fuzemsys.Fcc.Tree

variable {c : Cpu} {t : Track} {n : Nat} {B : Bare → Regs → Regs}

/-! ## Helpers of lines that exist -/

def Helper.Real (f : Helper) : Prop := ∀ t, ∀ i ∈ (f t).1, i.Exists

theorem Helper.Real.andThen {f g : Helper} (hf : f.Real) (hg : g.Real) : (f.andThen g).Real := by
  intro t i hi
  rcases List.mem_append.mp hi with hi | hi
  · exact hf t i hi
  · exact hg _ i hi

theorem real_emit {code : List Inst} (hcode : ∀ i ∈ code, i.Exists) : (emit code).Real := fun _ => hcode

theorem real_update (u : Track → Track) : (update u).Real := by
  intro t i hi
  cases hi

theorem real_repeatedOp {i : Inst} (hi : i.Exists) (n : Nat) : (repeatedOp n i).Real := by
  apply real_emit
  intro j hj
  rw [List.eq_of_mem_replicate hj]
  exact hi

theorem real_pairs {i j : Inst} (hi : i.Exists) (hj : j.Exists) (n : Nat) : (pairs n i j).Real := by
  apply real_emit
  intro k hk
  obtain ⟨pair, hpair, hk⟩ := List.mem_flatten.mp hk
  rw [List.eq_of_mem_replicate hpair] at hk
  rcases List.mem_pair.mp hk with rfl | rfl
  · exact hi
  · exact hj

theorem real_loadDConst (w : BitVec 16) : (loadDConst .m6809 w).Real := by
  intro t i hi
  unfold loadDConst at hi
  simp only [Target.m6809, if_true] at hi
  split at hi
  · rcases List.mem_append.mp hi with hi | hi
    · split at hi <;> simp at hi
      rw [hi]
      exact trivial
    · split at hi <;> simp at hi
      rw [hi]
      exact trivial
  · split at hi <;> simp at hi
    rw [hi]
    exact trivial

theorem real_loadAConst (v : Byte) : (loadAConst .m6809 v).Real := by
  intro t i hi
  unfold loadAConst at hi
  simp only [Target.m6809, if_true] at hi
  split at hi
  · simp at hi
  · dsimp only at hi
    split at hi
    · rw [List.mem_singleton.mp hi]
      exact trivial
    · split at hi <;> rw [List.mem_singleton.mp hi] <;> exact trivial

theorem real_loadBConst (v : Byte) : (loadBConst .m6809 v).Real := by
  intro t i hi
  unfold loadBConst at hi
  simp only [Target.m6809, if_true] at hi
  split at hi
  · simp at hi
  · dsimp only at hi
    split at hi
    · rw [List.mem_singleton.mp hi]
      exact trivial
    · split at hi <;> rw [List.mem_singleton.mp hi] <;> exact trivial

theorem real_loadAB : (loadAB .m6809).Real := by simp [Helper.Real, loadAB, Target.m6809, Inst.Exists]

theorem real_loadBA : (loadBA .m6809).Real := by simp [Helper.Real, loadBA, Target.m6809, Inst.Exists]

theorem real_addDConst (w : BitVec 16) : (addDConst .m6809 w).Real := by
  intro t i hi
  by_cases hw : w = 0
  · simp [addDConst, hw] at hi
  · rw [addDConst_eq hw] at hi
    rw [List.mem_singleton.mp hi]
    exact trivial

theorem real_addBConst (v : Byte) : (addBConst v).Real := by
  intro t i hi
  unfold addBConst at hi
  split at hi <;> simp at hi
  rw [hi]
  exact trivial

/-! ## What they load -/

theorem loadAConst_bytes (v : Byte) {t : Track} {r : Regs} (hs : t.Sound r) :
    (exec B (loadAConst .m6809 v t).1 r).a = v ∧ (exec B (loadAConst .m6809 v t).1 r).b = r.b := by
  unfold loadAConst
  split
  · next hknown => exact ⟨(hs.a hknown.1).trans hknown.2.symm, rfl⟩
  · dsimp only
    split
    · next hv => exact ⟨hv.symm, rfl⟩
    · split
      · next hknown => exact ⟨(hs.b hknown.1).trans hknown.2.symm, rfl⟩
      · exact ⟨rfl, rfl⟩

theorem loadBConst_bytes (v : Byte) {t : Track} {r : Regs} (hs : t.Sound r) :
    (exec B (loadBConst .m6809 v t).1 r).b = v ∧ (exec B (loadBConst .m6809 v t).1 r).a = r.a := by
  unfold loadBConst
  split
  · next hknown => exact ⟨(hs.b hknown.1).trans hknown.2.symm, rfl⟩
  · dsimp only
    split
    · next hv => exact ⟨hv.symm, rfl⟩
    · split
      · next hknown => exact ⟨(hs.a hknown.1).trans hknown.2.symm, rfl⟩
      · exact ⟨rfl, rfl⟩

/-- The registers after the lines of a helper. -/
theorem Helper.Real.run {f : Helper} (hf : f.Real) (B : Bare → Regs → Regs) (t : Track) (c : Cpu) :
    (execLines (f.print t).1 c).toRegs = exec B (f t).1 c.toRegs ∧ (execLines (f.print t).1 c).s = c.s ∧
      (execLines (f.print t).1 c).mem = c.mem := execLines_insts (hf t) c

/-! ## Shifts -/

theorem print_repeatedOp (n : Nat) (i : Inst) (t : Track) : ((repeatedOp n i).print t).1 = List.replicate n i.line :=
  List.map_replicate

theorem print_pairs (n : Nat) (i j : Inst) (t : Track) :
    ((pairs n i j).print t).1 = (List.replicate n [i.line, j.line]).flatten := by
  unfold Helper.print pairs emit
  rw [List.map_flatten, List.map_replicate]
  rfl

/-- What is remembered goes with a helper. -/
theorem print_andThen (f g : Helper) (t : Track) :
    ((f.andThen g).print t).1 = (f.print t).1 ++ (g.print (f t).2).1 := List.map_append

/-- A helper that puts what C wants where it is looked for. -/
def Helper.Leaves (f : Helper) (result : Cpu → Cpu → Prop) : Prop :=
  f.Real ∧ ∀ t c, t.Sound c.toRegs → result c (execLines (f.print t).1 c)

/-- B goes to A. -/
theorem leaves_moved_up : ((loadAB .m6809).andThen (loadBConst .m6809 0)).Leaves fun c c' => c'.a = c.b ∧ c'.b = 0 := by
  refine ⟨real_loadAB.andThen (real_loadBConst 0), ?_⟩
  intro t c hs
  obtain ⟨hregs, -, -⟩ := (real_loadAB.andThen (real_loadBConst 0)).run (fun _ r => r) t c
  obtain ⟨hb, ha⟩ := loadBConst_bytes (B := fun _ r => r) 0 (keeps_loadAB (B := fun _ r => r) t _ hs)
  rw [hregs, Helper.andThen, exec_append, hb, ha]
  exact ⟨rfl, rfl⟩

theorem leaves_moved_down : ((loadBA .m6809).andThen (loadAConst .m6809 0)).Leaves fun c c' => c'.a = 0 ∧ c'.b = c.a := by
  refine ⟨real_loadBA.andThen (real_loadAConst 0), ?_⟩
  intro t c hs
  obtain ⟨hregs, -, -⟩ := (real_loadBA.andThen (real_loadAConst 0)).run (fun _ r => r) t c
  obtain ⟨ha, hb⟩ := loadAConst_bytes (B := fun _ r => r) 0 (keeps_loadBA (B := fun _ r => r) t _ hs)
  rw [hregs, Helper.andThen, exec_append, ha, hb]
  exact ⟨rfl, rfl⟩

theorem leftShift_byte {u : Bool} {v : Nat} (hv : v < 8) {f : Helper} (hf : leftShift .m6809 ⟨1, u, some v⟩ = some f) :
    f.Leaves fun c c' => c'.b = c.b <<< v := by
  simp only [leftShift, Nat.not_lt.mpr (show 1 ≤ 2 by decide), if_false, if_true, ge_iff_le, Nat.not_le.mpr hv,
    Option.some.injEq] at hf
  subst hf
  refine ⟨(real_update _).andThen (real_repeatedOp (i := .lslb) trivial v), ?_⟩
  intro t c _
  rw [print_andThen, execLines_append, print_repeatedOp]
  exact run_lslb v c

theorem leftShift_word {u : Bool} {v : Nat} (hv : v ≤ 8) {f : Helper} (hf : leftShift .m6809 ⟨2, u, some v⟩ = some f) :
    f.Leaves fun c c' => c'.d = c.d <<< v := by
  simp only [leftShift, show ¬ (2 > 2) by decide, show ¬ (2 = 1) by decide, if_false, if_true, ge_iff_le,
    show ¬ 16 ≤ v by omega] at hf
  split at hf
  · obtain rfl : v = 8 := by omega
    simp only [Nat.sub_self, ne_eq, not_true, if_false, Option.some.injEq] at hf
    subst hf
    refine ⟨leaves_moved_up.1, ?_⟩
    intro t c hs
    obtain ⟨ha, hb⟩ := leaves_moved_up.2 t c hs
    show Regs.d _ = _
    rw [Regs.d, ha, hb]
    apply BitVec.eq_of_getLsbD_eq
    intro i hi
    simp [Regs.d, BitVec.getLsbD_shiftLeft]
    grind
  · rw [Option.some.injEq] at hf
    subst hf
    refine ⟨(real_pairs (i := .lslb) (j := .rola) trivial trivial v).andThen (real_update _), ?_⟩
    intro t c _
    rw [print_andThen, execLines_append, print_pairs]
    exact (run_repeat run_double v c).trans (iterate_shiftLeft _ v)

theorem rightShift_byte {u : Bool} {f : Helper} (hf : rightShift .m6809 ⟨1, u, some 0⟩ = some f) :
    f.Leaves fun c c' => c'.b = c.b := by
  simp only [rightShift, show ¬ (1 > 2) by decide, if_false, if_true, ge_iff_le, show ¬ 8 ≤ 0 by decide,
    Option.some.injEq] at hf
  subst hf
  exact ⟨(real_update _).andThen (by intro t i hi; cases hi), fun _ _ _ => rfl⟩

/-- Eight places are the way from A to B. -/
theorem upper_shifted (r : Regs) {v : Nat} (hv : 8 ≤ v) : (0 : Byte) ++ r.a >>> (v - 8) = r.d >>> v := by
  apply BitVec.eq_of_getLsbD_eq
  intro i hi
  simp [Regs.d]
  grind

theorem rightShift_word {u : Bool} {v : Nat} (hv : v < 16) {f : Helper} (hf : rightShift .m6809 ⟨2, u, some v⟩ = some f) :
    f.Leaves fun c c' => c'.d = if u then c.d >>> v else c.d.sshiftRight v := by
  simp only [rightShift, show ¬ (2 > 2) by decide, show ¬ (2 = 1) by decide, if_false, if_true, ge_iff_le,
    Nat.not_le.mpr hv] at hf
  split at hf
  · next hlarge =>
    obtain ⟨hlarge, rfl⟩ := hlarge
    split at hf
    · rw [Option.some.injEq] at hf
      subst hf
      refine ⟨leaves_moved_down.1.andThen ((real_repeatedOp (i := .lsrb) trivial _).andThen (real_update _)), ?_⟩
      intro t c hs
      obtain ⟨ha, hb⟩ := leaves_moved_down.2 t c hs
      obtain ⟨hb', ha'⟩ := run_lsrb (v - 8) (execLines (((loadBA .m6809).andThen (loadAConst .m6809 0)).print t).1 c)
      rw [print_andThen, execLines_append, print_andThen (repeatedOp (v - 8) .lsrb), print_repeatedOp, execLines_append]
      show (execLines (List.replicate (v - 8) (plain .lsrb)) _).d = c.d >>> v
      rw [Regs.d, hb', ha', ha, hb]
      exact upper_shifted c.toRegs hlarge
    · next hzero =>
      rw [Option.some.injEq] at hf
      subst hf
      refine ⟨leaves_moved_down.1, ?_⟩
      intro t c hs
      obtain ⟨ha, hb⟩ := leaves_moved_down.2 t c hs
      have hshifted := upper_shifted c.toRegs hlarge
      rw [not_not.mp hzero, BitVec.ushiftRight_zero] at hshifted
      show Regs.d _ = c.d >>> v
      rw [Regs.d, ha, hb]
      exact hshifted
  · rw [Option.some.injEq] at hf
    subst hf
    refine ⟨(real_pairs (j := .rorb) (by cases u <;> trivial) trivial v).andThen (real_update _), ?_⟩
    intro t c _
    rw [print_andThen, execLines_append, print_pairs]
    cases u with
    | true => exact (run_repeat run_halve v c).trans (iterate_ushiftRight _ v)
    | false => exact (run_repeat run_halve_signed v c).trans (iterate_sshiftRight _ v)

/-! ## Printers that leave a result -/

def Printer.Leaves (f : Printer) (result : Cpu → Cpu → Prop) : Prop :=
  f.Accepted ∧ ∀ t c, t.Sound c.toRegs → result c (execLines (f t).1 c)

theorem Helper.Leaves.print {f : Helper} {result : Cpu → Cpu → Prop} (hf : f.Leaves result) : f.print.Leaves result :=
  ⟨accepted_print hf.1, hf.2⟩

theorem accepted_code (c : List Line) (hc : c.all accepts = true) : (printf c).Accepted :=
  accepted_printf (List.all_eq_true.mp hc)

/-! ## Multiplications and divisions -/

theorem accepted_mulLoop (n : Nat) : ∀ l ∈ (mulLoop n).1, accepts l = true := by
  induction n using mulLoop.induct with
  | case1 n hn code pops hloop hodd ih =>
    rw [hloop] at ih
    rw [mulLoop, if_pos hn, hloop]
    simp only [hodd, if_true, List.forall_mem_cons]
    exact ⟨rfl, rfl, rfl, ih⟩
  | case2 n hn code pops hloop heven ih =>
    rw [hloop] at ih
    rw [mulLoop, if_pos hn, hloop]
    simp only [heven, if_false, List.forall_mem_cons]
    exact ⟨rfl, rfl, ih⟩
  | case3 n hn =>
    rw [mulLoop, if_neg hn]
    exact List.forall_mem_nil _

theorem accepted_mulCode (n : Nat) : (printf (mulCode n)).Accepted := by
  apply accepted_printf
  intro l hl
  rcases List.mem_append.mp hl with hl | hl
  · exact accepted_mulLoop n l hl
  · rw [List.eq_of_mem_replicate hl]
    rfl

/-- A multiplication by 256. -/
theorem moved_up_mul (r : Regs) : r.b ++ (0 : Byte) = r.d * 256 := by
  have htwo : (256 : BitVec 16) = BitVec.twoPow 16 8 := rfl
  rw [htwo, ← BitVec.shiftLeft_eq_mul_twoPow]
  apply BitVec.eq_of_getLsbD_eq
  intro i hi
  simp [Regs.d, BitVec.getLsbD_shiftLeft]
  grind

theorem run_moved_up {f : Printer} {t : Track} (hs : t.Sound c.toRegs) : ∃ t' c', c'.d = c.d * 256 ∧
    execLines (Printer.andThen (loadAB .m6809).print (Printer.andThen (loadBConst .m6809 0).print f) t).1 c =
      execLines (f t').1 c' := by
  obtain ⟨ha, hb⟩ := leaves_moved_up.2 t c hs
  rw [print_andThen, execLines_append] at ha hb
  rw [run_andThen, run_andThen]
  refine ⟨_, _, ?_, rfl⟩
  have hd : _ = (c.b ++ (0 : Byte) : BitVec 16) := congrArg₂ (· ++ ·) ha hb
  exact hd.trans (moved_up_mul c.toRegs)

theorem leaves_genFastMul {n : Nat} (hn : n < 2 ^ 16) : (genFastMul n).Leaves fun c c' => c'.d = c.d * BitVec.ofNat 16 n := by
  unfold genFastMul
  split
  · next hzero =>
    subst hzero
    refine ⟨accepted_print (real_loadDConst 0), ?_⟩
    intro t c hs
    obtain ⟨hregs, -, -⟩ := (real_loadDConst 0).run (fun _ r => r) t c
    rw [hregs, loadDConst_d 0 hs]
    exact BitVec.mul_zero.symm
  · unfold writeMul
    split
    · next hzero hbyte =>
      refine ⟨accepted_andThen (accepted_andThen (accepted_print real_loadAB) (accepted_andThen
        (accepted_print (real_loadBConst 0)) (accepted_mulCode _))) (accepted_note _), ?_⟩
      intro t c hs
      obtain ⟨t', c', hd, hrun⟩ := run_moved_up (f := printf (mulCode (n / 256))) hs
      obtain ⟨-, hmul⟩ := run_mulCode (n / 256) (by omega) (by omega) c'
      rw [run_andThen, hrun, run_note, execLines_nil, run_printf, hmul, hd]
      have hn : BitVec.ofNat 16 n = 256 * BitVec.ofNat 16 (n / 256) := by
        conv_lhs => rw [← Nat.mul_div_cancel' (Nat.dvd_of_mod_eq_zero hbyte)]
        rw [BitVec.ofNat_mul]
        rfl
      rw [hn, mul_assoc]
    · next hzero _ =>
      refine ⟨accepted_andThen (accepted_mulCode n) (accepted_note _), ?_⟩
      intro t c _
      rw [run_andThen, run_note, execLines_nil]
      exact (run_mulCode n (by omega) hn c).2

theorem leaves_genFastDiv {f : Printer} (hf : genFastDiv 2 2 true = some f) :
    f.Leaves fun c c' => c'.d = c.d >>> 1 := by
  have hhalvings : halvings 2 = 1 := by simp [halvings]
  rw [genFastDiv, if_neg (by decide), if_neg (by decide), if_neg (by decide), if_neg (by decide), Option.some.injEq,
    hhalvings] at hf
  subst hf
  exact ⟨accepted_andThen (accepted_code _ rfl) (accepted_note _), fun _ c _ => run_halve c⟩

end Fuzemsys.Fcc.Code6800
