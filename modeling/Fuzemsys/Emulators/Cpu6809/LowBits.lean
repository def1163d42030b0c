import Fuzemsys.Lib.LowBits
import Fuzemsys.Lib.TwoRun
import Fuzemsys.Emulators.Cpu6809.Frame

/-!
# The upper bits of the registers

A register "has valid bits only in the lower 16 bits" or 8 bits, and "the upper
may contain garbage". Two machines are alike when they differ in that garbage
only. One step from two alike machines does the same, except for the number of
the system call.
-/

namespace Fuzemsys.Emulators.Cpu6809

open Fuzemsys.Emulators Fuzemsys.Lib

variable {H : Type}

/-- The machines differ at most in the upper bits of their registers. -/
structure Alike (s t : Machine H) : Prop where
  reg8 : ∀ r, LowEq 8 (s.reg8 r) (t.reg8 r)
  reg16 : ∀ r, LowEq 16 (s.reg16 r) (t.reg16 r)
  regPc : s.regPc = t.regPc
  irqStatus : s.irqStatus = t.irqStatus
  writeBrkpt : s.writeBrkpt = t.writeBrkpt
  cycles : s.cycles = t.cycles
  mem : s.mem = t.mem
  brkpoints : s.brkpoints = t.brkpoints
  host : s.host = t.host
  accesses : s.accesses = t.accesses
  fetched : s.fetched = t.fetched

/-- The rest of the emulator sees no difference. -/
theorem Alike.regs {s t : Machine H} (h : Alike s t) : e6809GetRegs s = e6809GetRegs t := by
  simp only [e6809GetRegs, Regs.mk.injEq]
  exact ⟨h.reg16 .x, h.reg16 .y, h.reg16 .u, h.reg16 .s, h.regPc, h.reg8 .a, h.reg8 .b, h.reg8 .dp,
    h.reg8 .cc⟩

/-- The second machine is the first one with other registers. -/
theorem Alike.split {s t : Machine H} (h : Alike s t) :
    ∃ r8 r16, (∀ r, LowEq 8 (s.reg8 r) (r8 r)) ∧ (∀ r, LowEq 16 (s.reg16 r) (r16 r)) ∧
      t = { s with reg8 := r8, reg16 := r16 } := by
  refine ⟨t.reg8, t.reg16, h.reg8, h.reg16, ?_⟩
  obtain ⟨-, -, hpc, hirq, hwb, hcyc, hmem, hbp, hhost, hacc, hfet⟩ := h
  cases s
  cases t
  simp_all only

/-- Machines with the same surroundings are alike when their registers are. -/
theorem Alike.of_regs {s : Machine H} {r8 : Reg8 → BitVec 32} {r16 : Reg16 → BitVec 32}
    (h8 : ∀ r, LowEq 8 (s.reg8 r) (r8 r)) (h16 : ∀ r, LowEq 16 (s.reg16 r) (r16 r)) :
    Alike s { s with reg8 := r8, reg16 := r16 } :=
  ⟨h8, h16, rfl, rfl, rfl, rfl, rfl, rfl, rfl, rfl, rfl⟩

/-! ## Registers -/

theorem alike_get8 (r : Reg8) : Agree (Alike (H := H)) (LowEq 8) (get8 r) (get8 r) :=
  agree_gets fun _ _ h => h.reg8 r

theorem alike_get16 (r : Reg16) : Agree (Alike (H := H)) (LowEq 16) (get16 r) (get16 r) :=
  agree_gets fun _ _ h => h.reg16 r

theorem alike_getPc : Agree (Alike (H := H)) Eq getPc getPc :=
  agree_gets fun _ _ h => h.regPc

theorem alike_set8 (r : Reg8) {a b : BitVec 32} (hab : LowEq 8 a b) :
    Agree (Alike (H := H)) Eq (set8 r a) (set8 r b) := by
  refine agree_modify fun s t h => { h with reg8 := fun q => ?_ }
  simp only [Function.update_apply]
  split
  · exact hab
  · exact h.reg8 q

theorem alike_set16 (r : Reg16) {a b : BitVec 32} (hab : LowEq 16 a b) :
    Agree (Alike (H := H)) Eq (set16 r a) (set16 r b) := by
  refine agree_modify fun s t h => { h with reg16 := fun q => ?_ }
  simp only [Function.update_apply]
  split
  · exact hab
  · exact h.reg16 q

theorem alike_setPc {a b : BitVec 32} (hab : LowEq 16 a b) :
    Agree (Alike (H := H)) Eq (setPc a) (setPc b) :=
  agree_modify fun _ _ h => { h with regPc := hab }

theorem alike_addCycles (n : BitVec 32) : Agree (Alike (H := H)) Eq (addCycles n) (addCycles n) :=
  agree_modify fun _ _ h => { h with cycles := congrArg (· + n) h.cycles }

theorem alike_setIrqStatus (st : IrqStatus) :
    Agree (Alike (H := H)) Eq (setIrqStatus st) (setIrqStatus st) :=
  agree_modify fun _ _ h => { h with irqStatus := rfl }

theorem alike_getIrqStatus : Agree (Alike (H := H)) Eq getIrqStatus getIrqStatus :=
  agree_gets fun _ _ h => h.irqStatus

theorem alike_countFetched (n : Nat) :
    Agree (Alike (H := H)) Eq (countFetched n) (countFetched n) :=
  agree_modify fun _ _ h => { h with fetched := congrArg (· + n) h.fetched }

/-- A condition code is one of the low 8 bits. -/
theorem flag_div_eq (flag : Flag) {a b : BitVec 32} (hab : LowEq 8 a b) :
    (a / flag.val) &&& 1 = (b / flag.val) &&& 1 := by
  rw [lowEq_iff_mod] at hab
  apply BitVec.eq_of_toNat_eq
  rw [BitVec.toNat_and, BitVec.toNat_and, BitVec.toNat_udiv, BitVec.toNat_udiv]
  simp only [show (1 : BitVec 32).toNat = 2 ^ 1 - 1 from rfl, Nat.and_two_pow_sub_one_eq_mod]
  cases flag <;> simp only [Flag.val, BitVec.reduceToNat] <;> omega

theorem alike_getCc (flag : Flag) : Agree (Alike (H := H)) Eq (getCc flag) (getCc flag) :=
  agree_bind (alike_get8 .cc) fun _ _ h => agree_pure (flag_div_eq flag h)

theorem alike_setCc (flag : Flag) {v w : BitVec 32} (hvw : v = w) :
    Agree (Alike (H := H)) Eq (setCc flag v) (setCc flag w) := by
  subst hvw
  exact agree_bind (alike_get8 .cc) fun _ _ h =>
    alike_set8 .cc ((h.and (LowEq.refl 8 _)).or (LowEq.refl 8 _))

theorem alike_getRegD : Agree (Alike (H := H)) (LowEq 16) getRegD getRegD := by
  refine agree_bind (alike_get8 .a) fun a a' ha => agree_bind (alike_get8 .b) fun b b' hb => ?_
  refine agree_pure ((ha.shiftLeft 8).or (LowEq.of_eq ?_))
  exact hb.mask 0xff (by decide)

theorem alike_setRegD {a b : BitVec 32} (hab : LowEq 16 a b) :
    Agree (Alike (H := H)) Eq (setRegD a) (setRegD b) :=
  agree_seq (alike_set8 .a (LowEq.shiftRight hab)) (alike_set8 .b (hab.mono (by decide)))

/-! ## Tests for the condition codes -/

theorem testC_eq {i0 j0 i1 j1 r r' : BitVec 32} (sub : BitVec 32) (h0 : LowEq 8 i0 j0)
    (h1 : LowEq 8 i1 j1) (hr : LowEq 8 r r') : testC i0 i1 r sub = testC j0 j1 r' sub := by
  simp only [testC]
  rw [(((h0.or h1).and hr.not).or (h0.and h1)).bit 7 (by decide) 1 (by decide)]

theorem testN_eq {r r' : BitVec 32} (hr : LowEq 8 r r') : testN r = testN r' :=
  hr.bit 7 (by decide) 1 (by decide)

theorem testV_eq {i0 j0 i1 j1 r r' : BitVec 32} (h0 : LowEq 8 i0 j0) (h1 : LowEq 8 i1 j1)
    (hr : LowEq 8 r r') : testV i0 i1 r = testV j0 j1 r' :=
  ((h0.xor h1).not.and (h0.xor hr)).bit 7 (by decide) 1 (by decide)

/-- The first folding step of the zero tests keeps what the lower half says. -/
theorem fold_half_eq {r r' : BitVec 32} (n : Nat) (mask : BitVec 32) (hr : LowEq (n + n) r r')
    (hmask : mask.toNat < 2 ^ n) : (r >>> n) &&& (r &&& mask) = (r' >>> n) &&& (r' &&& mask) := by
  rw [← BitVec.and_assoc, ← BitVec.and_assoc]
  exact ((LowEq.shiftRight hr).and (hr.mono (by omega))).mask mask hmask

theorem testZ8_eq {r r' : BitVec 32} (hr : LowEq 8 r r') : testZ8 r = testZ8 r' := by
  simp only [testZ8]
  rw [fold_half_eq 4 0xf hr.not (by decide)]

theorem testZ16_eq {r r' : BitVec 32} (hr : LowEq 16 r r') : testZ16 r = testZ16 r' := by
  simp only [testZ16]
  rw [fold_half_eq 8 0xff hr.not (by decide)]

theorem signExtend_eq {a b : BitVec 32} (hab : LowEq 8 a b) : signExtend a = signExtend b := by
  simp only [signExtend]
  rw [hab.mask 0x80 (by decide), hab.mask 0xff (by decide)]

/-! ## Memory -/

theorem alike_read8 {a b : BitVec 32} (hab : LowEq 16 a b) :
    Agree (Alike (H := H)) Eq (read8 a) (read8 b) := by
  intro s t h
  obtain ⟨r8, r16, h8, h16, rfl⟩ := h.split
  simp only [EStateM.run, read8, hab.mask 0xffff (by decide)]
  exact ⟨rfl, Alike.of_regs h8 h16⟩

theorem alike_write8 {a b x y : BitVec 32} (hab : LowEq 16 a b) (hxy : LowEq 8 x y) :
    Agree (Alike (H := H)) Eq (write8 a x) (write8 b y) := by
  intro s t h
  obtain ⟨r8, r16, h8, h16, rfl⟩ := h.split
  simp only [EStateM.run, write8, hab.mask 0xffff (by decide), show x.setWidth 8 = y.setWidth 8 from hxy]
  cases e6809Write8 s.mem (b &&& 0xffff) (y.setWidth 8) with
  | error stop => exact ⟨rfl, Alike.of_regs h8 h16⟩
  | ok mem => exact ⟨rfl, Alike.of_regs h8 h16⟩

theorem alike_read16 {a b : BitVec 32} (hab : LowEq 16 a b) :
    Agree (Alike (H := H)) Eq (read16 a) (read16 b) :=
  agree_bind_eq (alike_read8 hab) fun _ =>
    agree_bind_eq (alike_read8 (hab.add (LowEq.refl 16 1))) fun _ => agree_pure rfl

theorem alike_write16 {a b x y : BitVec 32} (hab : LowEq 16 a b) (hxy : LowEq 16 x y) :
    Agree (Alike (H := H)) Eq (write16 a x) (write16 b y) :=
  agree_seq (alike_write8 hab (LowEq.shiftRight hxy))
    (alike_write8 (hab.add (LowEq.refl 16 1)) (hxy.mono (by decide)))

theorem alike_push8 (sp : Reg16) {x y : BitVec 32} (hxy : LowEq 8 x y) :
    Agree (Alike (H := H)) Eq (push8 sp x) (push8 sp y) :=
  agree_bind (alike_get16 sp) fun _ _ hs =>
    agree_seq (alike_set16 sp (hs.sub (LowEq.refl 16 1)))
      (agree_bind (alike_get16 sp) fun _ _ hs => alike_write8 hs hxy)

theorem alike_pull8 (sp : Reg16) : Agree (Alike (H := H)) Eq (pull8 sp) (pull8 sp) :=
  agree_bind (alike_get16 sp) fun _ _ hs =>
    agree_bind_eq (alike_read8 hs) fun _ =>
      agree_bind (alike_get16 sp) fun _ _ hs =>
        agree_seq (alike_set16 sp (hs.add (LowEq.refl 16 1))) (agree_pure rfl)

theorem alike_push16 (sp : Reg16) {x y : BitVec 32} (hxy : LowEq 16 x y) :
    Agree (Alike (H := H)) Eq (push16 sp x) (push16 sp y) :=
  agree_seq (alike_push8 sp (hxy.mono (by decide))) (alike_push8 sp (LowEq.shiftRight hxy))

theorem alike_pull16 (sp : Reg16) : Agree (Alike (H := H)) Eq (pull16 sp) (pull16 sp) :=
  agree_bind_eq (alike_pull8 sp) fun _ => agree_bind_eq (alike_pull8 sp) fun _ => agree_pure rfl

theorem alike_addPc {a b : BitVec 32} (hab : LowEq 16 a b) :
    Agree (Alike (H := H)) Eq (addPc a) (addPc b) :=
  agree_bind_eq alike_getPc fun _ => alike_setPc ((LowEq.refl 16 _).add hab)

theorem alike_pcRead8 : Agree (Alike (H := H)) Eq pcRead8 pcRead8 :=
  agree_bind_eq alike_getPc fun _ =>
    agree_bind_eq (alike_read8 (LowEq.refl 16 _)) fun _ =>
      agree_seq (alike_addPc (LowEq.refl 16 1)) (agree_seq (alike_countFetched 1) (agree_pure rfl))

theorem alike_pcRead16 : Agree (Alike (H := H)) Eq pcRead16 pcRead16 :=
  agree_bind_eq alike_getPc fun _ =>
    agree_bind_eq (alike_read16 (LowEq.refl 16 _)) fun _ =>
      agree_seq (alike_addPc (LowEq.refl 16 2)) (agree_seq (alike_countFetched 2) (agree_pure rfl))

/-! ## Addressing modes -/

theorem alike_eaDirect : Agree (Alike (H := H)) (LowEq 16) eaDirect eaDirect :=
  agree_bind (alike_get8 .dp) fun _ _ hdp =>
    agree_bind_eq alike_pcRead8 fun _ => agree_pure ((hdp.shiftLeft 8).or (LowEq.refl 16 _))

theorem alike_indirectly (indirect : Bool) {a b : BitVec 32} (hab : LowEq 16 a b) :
    Agree (Alike (H := H)) (LowEq 16) (indirectly indirect a) (indirectly indirect b) :=
  agree_ite (agree_mono (alike_read16 hab) fun _ _ h => LowEq.of_eq h) (agree_pure hab)

/-- The end of most indexed cases: go through memory if asked to, count cycles, return. -/
theorem alike_eaEnd (indirect : Bool) (n : BitVec 32) {a b : BitVec 32} (hab : LowEq 16 a b) :
    Agree (Alike (H := H)) (LowEq 16)
      (do let ea ← indirectly indirect a; addCycles n; return ea)
      (do let ea ← indirectly indirect b; addCycles n; return ea) :=
  agree_bind (alike_indirectly indirect hab) fun _ _ h =>
    agree_seq (alike_addCycles n) (agree_pure h)

theorem alike_eaIndexed : Agree (Alike (H := H)) (LowEq 16) eaIndexed eaIndexed := by
  refine agree_bind_eq alike_pcRead8 fun op => ?_
  cases indexMode (op.setWidth 8) with
  | none => exact agree_throw _
  | some mode =>
    cases mode with
    | posOffset =>
      exact agree_bind (alike_get16 _) fun _ _ h =>
        agree_seq (alike_addCycles 1) (agree_pure (h.add (LowEq.refl 16 _)))
    | negOffset =>
      exact agree_bind (alike_get16 _) fun _ _ h =>
        agree_seq (alike_addCycles 1) (agree_pure ((h.add (LowEq.refl 16 _)).sub (LowEq.refl 16 _)))
    | postInc indirect =>
      refine agree_bind (alike_get16 _) fun _ _ h => agree_bind (alike_indirectly indirect h) fun _ _ hea => ?_
      refine agree_bind (alike_get16 _) fun _ _ h => agree_seq (alike_set16 _ (h.add (LowEq.refl 16 _))) ?_
      exact agree_seq (alike_addCycles _) (agree_pure hea)
    | preDec indirect =>
      refine agree_bind (alike_get16 _) fun _ _ h => agree_seq (alike_set16 _ (h.sub (LowEq.refl 16 _))) ?_
      exact agree_bind (alike_get16 _) fun _ _ h => alike_eaEnd indirect _ h
    | noOffset indirect => exact agree_bind (alike_get16 _) fun _ _ h => alike_eaEnd indirect _ h
    | accB indirect =>
      exact agree_bind (alike_get16 _) fun _ _ h => agree_bind (alike_get8 .b) fun _ _ hb =>
        alike_eaEnd indirect _ (h.add (LowEq.of_eq (signExtend_eq hb)))
    | accA indirect =>
      exact agree_bind (alike_get16 _) fun _ _ h => agree_bind (alike_get8 .a) fun _ _ ha =>
        alike_eaEnd indirect _ (h.add (LowEq.of_eq (signExtend_eq ha)))
    | byteR indirect =>
      exact agree_bind (alike_get16 _) fun _ _ h => agree_bind_eq alike_pcRead8 fun _ =>
        alike_eaEnd indirect _ (h.add (LowEq.refl 16 _))
    | wordR indirect =>
      exact agree_bind (alike_get16 _) fun _ _ h => agree_bind_eq alike_pcRead16 fun _ =>
        alike_eaEnd indirect _ (h.add (LowEq.refl 16 _))
    | accD indirect =>
      exact agree_bind (alike_get16 _) fun _ _ h => agree_bind alike_getRegD fun _ _ hd =>
        alike_eaEnd indirect _ (h.add hd)
    | bytePc indirect =>
      exact agree_bind_eq alike_pcRead8 fun _ => agree_bind_eq alike_getPc fun _ =>
        alike_eaEnd indirect _ (LowEq.refl 16 _)
    | wordPc indirect =>
      exact agree_bind_eq alike_pcRead16 fun _ => agree_bind_eq alike_getPc fun _ =>
        alike_eaEnd indirect _ (LowEq.refl 16 _)
    | address =>
      exact agree_bind_eq alike_pcRead16 fun _ => agree_bind_eq (alike_read16 (LowEq.refl 16 _)) fun _ =>
        agree_seq (alike_addCycles 5) (agree_pure (LowEq.refl 16 _))

/-! ## Instructions -/

/-- The five condition codes of an 8-bit addition, then its result. -/
theorem alike_flagsHNZVC (sub : BitVec 32) {i0 j0 i1 j1 r r' : BitVec 32} (h0 : LowEq 8 i0 j0)
    (h1 : LowEq 8 i1 j1) (hr : LowEq 8 r r') :
    Agree (Alike (H := H)) (LowEq 8)
      (do setCc .H (testC (i0 <<< 4) (i1 <<< 4) (r <<< 4) 0)
          setCc .N (testN r)
          setCc .Z (testZ8 r)
          setCc .V (testV i0 i1 r)
          setCc .C (testC i0 i1 r sub)
          return r)
      (do setCc .H (testC (j0 <<< 4) (j1 <<< 4) (r' <<< 4) 0)
          setCc .N (testN r')
          setCc .Z (testZ8 r')
          setCc .V (testV j0 j1 r')
          setCc .C (testC j0 j1 r' sub)
          return r') := by
  have hshift : ∀ {a b : BitVec 32}, LowEq 8 a b → LowEq 8 (a <<< 4) (b <<< 4) := fun h =>
    (h.shiftLeft 4).mono (by decide)
  refine agree_seq (alike_setCc .H (testC_eq 0 (hshift h0) (hshift h1) (hshift hr))) ?_
  refine agree_seq (alike_setCc .N (testN_eq hr)) (agree_seq (alike_setCc .Z (testZ8_eq hr)) ?_)
  exact agree_seq (alike_setCc .V (testV_eq h0 h1 hr))
    (agree_seq (alike_setCc .C (testC_eq sub h0 h1 hr)) (agree_pure hr))

/-- The four condition codes of a 16-bit addition, then its result. -/
theorem alike_flagsNZVC16 (sub : BitVec 32) {i0 j0 i1 j1 r r' : BitVec 32} (h0 : LowEq 16 i0 j0)
    (h1 : LowEq 16 i1 j1) (hr : LowEq 16 r r') :
    Agree (Alike (H := H)) (LowEq 16)
      (do setCc .N (testN (r >>> 8))
          setCc .Z (testZ16 r)
          setCc .V (testV (i0 >>> 8) (i1 >>> 8) (r >>> 8))
          setCc .C (testC (i0 >>> 8) (i1 >>> 8) (r >>> 8) sub)
          return r)
      (do setCc .N (testN (r' >>> 8))
          setCc .Z (testZ16 r')
          setCc .V (testV (j0 >>> 8) (j1 >>> 8) (r' >>> 8))
          setCc .C (testC (j0 >>> 8) (j1 >>> 8) (r' >>> 8) sub)
          return r') := by
  have h0' : LowEq 8 (i0 >>> 8) (j0 >>> 8) := LowEq.shiftRight h0
  have h1' : LowEq 8 (i1 >>> 8) (j1 >>> 8) := LowEq.shiftRight h1
  have hr' : LowEq 8 (r >>> 8) (r' >>> 8) := LowEq.shiftRight hr
  refine agree_seq (alike_setCc .N (testN_eq hr')) (agree_seq (alike_setCc .Z (testZ16_eq hr)) ?_)
  exact agree_seq (alike_setCc .V (testV_eq h0' h1' hr'))
    (agree_seq (alike_setCc .C (testC_eq sub h0' h1' hr')) (agree_pure hr))

theorem alike_instTst8 {a b : BitVec 32} (h : LowEq 8 a b) :
    Agree (Alike (H := H)) Eq (instTst8 a) (instTst8 b) :=
  agree_seq (alike_setCc .N (testN_eq h))
    (agree_seq (alike_setCc .Z (testZ8_eq h)) (alike_setCc .V rfl))

theorem alike_instTst16 {a b : BitVec 32} (h : LowEq 16 a b) :
    Agree (Alike (H := H)) Eq (instTst16 a) (instTst16 b) :=
  agree_seq (alike_setCc .N (testN_eq (LowEq.shiftRight h)))
    (agree_seq (alike_setCc .Z (testZ16_eq h)) (alike_setCc .V rfl))

theorem alike_instClr : Agree (Alike (H := H)) Eq instClr instClr :=
  agree_seq (alike_setCc .N rfl)
    (agree_seq (alike_setCc .Z rfl) (agree_seq (alike_setCc .V rfl) (alike_setCc .C rfl)))

/-- The condition codes of the shifts to the right. -/
theorem alike_flagsShift {n n' r r' data data' : BitVec 32} (hn : n = n') (hr : LowEq 8 r r')
    (hdata : LowEq 8 data data') :
    Agree (Alike (H := H)) (LowEq 8)
      (do setCc .N n; setCc .Z (testZ8 r); setCc .C (data &&& 1); return r)
      (do setCc .N n'; setCc .Z (testZ8 r'); setCc .C (data' &&& 1); return r') :=
  agree_seq (alike_setCc .N hn) (agree_seq (alike_setCc .Z (testZ8_eq hr))
    (agree_seq (alike_setCc .C (hdata.mask 1 (by decide))) (agree_pure hr)))

theorem alike_instUnary (f : Unary) {a b : BitVec 32} (h : LowEq 8 a b) :
    Agree (Alike (H := H)) (LowEq 8) (instUnary f a) (instUnary f b) := by
  have hhalf : LowEq 8 ((a >>> 1) &&& 0x7f) ((b >>> 1) &&& 0x7f) :=
    LowEq.of_eq ((LowEq.shiftRight (n := 7) h).mask 0x7f (by decide))
  cases f with
  | neg =>
    exact alike_flagsHNZVC 1 (LowEq.refl 8 0) h.not
      (((LowEq.refl 8 0).add h.not).add (LowEq.refl 8 1))
  | com =>
    exact agree_seq (alike_setCc .N (testN_eq h.not)) (agree_seq (alike_setCc .Z (testZ8_eq h.not))
      (agree_seq (alike_setCc .V rfl) (agree_seq (alike_setCc .C rfl) (agree_pure h.not))))
  | lsr => exact alike_flagsShift rfl hhalf h
  | ror =>
    refine agree_bind_eq (alike_getCc .C) fun c => ?_
    have hr := hhalf.or (LowEq.refl 8 (c <<< 7))
    exact alike_flagsShift (testN_eq hr) hr h
  | asr =>
    have hr := hhalf.or (h.and (LowEq.refl 8 0x80))
    exact alike_flagsShift (testN_eq hr) hr h
  | asl => exact alike_flagsHNZVC 0 h h (h.add h)
  | rol =>
    refine agree_bind_eq (alike_getCc .C) fun c => ?_
    have hr := (h.add h).add (LowEq.refl 8 c)
    exact agree_seq (alike_setCc .N (testN_eq hr)) (agree_seq (alike_setCc .Z (testZ8_eq hr))
      (agree_seq (alike_setCc .V (testV_eq h h hr))
        (agree_seq (alike_setCc .C (testC_eq 0 h h hr)) (agree_pure hr))))
  | dec =>
    have hr := h.add (LowEq.refl 8 0xff)
    exact agree_seq (alike_setCc .N (testN_eq hr)) (agree_seq (alike_setCc .Z (testZ8_eq hr))
      (agree_seq (alike_setCc .V (testV_eq h (LowEq.refl 8 _) hr)) (agree_pure hr)))
  | inc =>
    have hr := h.add (LowEq.refl 8 1)
    exact agree_seq (alike_setCc .N (testN_eq hr)) (agree_seq (alike_setCc .Z (testZ8_eq hr))
      (agree_seq (alike_setCc .V (testV_eq h (LowEq.refl 8 _) hr)) (agree_pure hr)))

theorem alike_instBinary8 (f : Binary8) {a b x y : BitVec 32} (hab : LowEq 8 a b) (hxy : LowEq 8 x y) :
    Agree (Alike (H := H)) (LowEq 8) (instBinary8 f a x) (instBinary8 f b y) := by
  cases f with
  | sub8 => exact alike_flagsHNZVC 1 hab hxy.not ((hab.add hxy.not).add (LowEq.refl 8 1))
  | sbc =>
    exact agree_bind_eq (alike_getCc .C) fun c =>
      alike_flagsHNZVC 1 hab hxy.not ((hab.add hxy.not).add (LowEq.refl 8 (1 - c)))
  | and => exact agree_seq (alike_instTst8 (hab.and hxy)) (agree_pure (hab.and hxy))
  | eor => exact agree_seq (alike_instTst8 (hab.xor hxy)) (agree_pure (hab.xor hxy))
  | adc =>
    exact agree_bind_eq (alike_getCc .C) fun c =>
      alike_flagsHNZVC 0 hab hxy ((hab.add hxy).add (LowEq.refl 8 c))
  | or => exact agree_seq (alike_instTst8 (hab.or hxy)) (agree_pure (hab.or hxy))
  | add8 => exact alike_flagsHNZVC 0 hab hxy (hab.add hxy)

theorem alike_instAdd16 {a b x y : BitVec 32} (hab : LowEq 16 a b) (hxy : LowEq 16 x y) :
    Agree (Alike (H := H)) (LowEq 16) (instAdd16 a x) (instAdd16 b y) :=
  alike_flagsNZVC16 0 hab hxy (hab.add hxy)

theorem alike_instSub16 {a b x y : BitVec 32} (hab : LowEq 16 a b) (hxy : LowEq 16 x y) :
    Agree (Alike (H := H)) (LowEq 16) (instSub16 a x) (instSub16 b y) :=
  alike_flagsNZVC16 1 hab hxy.not ((hab.add hxy.not).add (LowEq.refl 16 1))

theorem alike_instBra8 (test op : BitVec 32) :
    Agree (Alike (H := H)) Eq (instBra8 test op) (instBra8 test op) :=
  agree_bind_eq alike_pcRead8 fun _ => agree_seq (alike_addPc (LowEq.refl 16 _)) (alike_addCycles 3)

theorem alike_instBra16 (test op : BitVec 32) :
    Agree (Alike (H := H)) Eq (instBra16 test op) (instBra16 test op) :=
  agree_bind_eq alike_pcRead16 fun _ => agree_seq (alike_addPc (LowEq.refl 16 _)) (alike_addCycles _)

theorem alike_whenBit (op bit : BitVec 32) {c d : M H Unit} (h : Agree Alike Eq c d) :
    Agree (Alike (H := H)) Eq (whenBit op bit c) (whenBit op bit d) :=
  agree_ite h (agree_pure rfl)

theorem alike_instPsh (op : BitVec 32) (sp : Reg16) {a b : BitVec 32} (hab : LowEq 16 a b) :
    Agree (Alike (H := H)) Eq (instPsh op sp a) (instPsh op sp b) := by
  have hpush16 := fun q r => alike_whenBit (H := H) op r (agree_bind (alike_get16 q) fun _ _ h =>
    agree_seq (alike_push16 sp h) (alike_addCycles 2))
  have hpush8 := fun q r => alike_whenBit (H := H) op r (agree_bind (alike_get8 q) fun _ _ h =>
    agree_seq (alike_push8 sp h) (alike_addCycles 1))
  refine agree_seq (alike_whenBit op 0x80 ?_) (agree_seq (alike_whenBit op 0x40 ?_) ?_)
  · exact agree_bind_eq alike_getPc fun _ =>
      agree_seq (alike_push16 sp (LowEq.refl 16 _)) (alike_addCycles 2)
  · exact agree_seq (alike_push16 sp hab) (alike_addCycles 2)
  · exact agree_seq (hpush16 _ _) (agree_seq (hpush16 _ _) (agree_seq (hpush8 _ _) (agree_seq (hpush8 _ _)
      (agree_seq (hpush8 _ _) (hpush8 _ _)))))

theorem alike_instPul (op : BitVec 32) (sp osp : Reg16) :
    Agree (Alike (H := H)) Eq (instPul op sp osp) (instPul op sp osp) := by
  have hpull8 := fun q r => alike_whenBit (H := H) op r (agree_bind_eq (alike_pull8 sp) fun v =>
    agree_seq (alike_set8 q (LowEq.refl 8 v)) (alike_addCycles 1))
  have hpull16 := fun q r => alike_whenBit (H := H) op r (agree_bind_eq (alike_pull16 sp) fun v =>
    agree_seq (alike_set16 q (LowEq.refl 16 v)) (alike_addCycles 2))
  refine agree_seq (hpull8 _ _) (agree_seq (hpull8 _ _) (agree_seq (hpull8 _ _) (agree_seq (hpull8 _ _) ?_)))
  refine agree_seq (hpull16 _ _) (agree_seq (hpull16 _ _) (agree_seq (hpull16 _ _) (alike_whenBit op 0x80 ?_)))
  exact agree_bind_eq (alike_pull16 sp) fun _ =>
    agree_seq (alike_setPc (LowEq.refl 16 _)) (alike_addCycles 2)

/-- An 8-bit register under the all-ones byte of exg and tfr. -/
theorem alike_read_ff (r : Reg8) :
    Agree (Alike (H := H)) (LowEq 16) (do return 0xff00 ||| (← get8 r)) (do return 0xff00 ||| (← get8 r)) := by
  refine agree_bind (alike_get8 r) fun a b h => agree_pure ?_
  rw [lowEq_iff_getLsbD] at *
  intro i hi
  by_cases hlow : i < 8
  · simp only [BitVec.getLsbD_or, h i hlow]
  · have hone : (0xff00 : BitVec 32).getLsbD i = true := by
      have : i = 8 ∨ i = 9 ∨ i = 10 ∨ i = 11 ∨ i = 12 ∨ i = 13 ∨ i = 14 ∨ i = 15 := by omega
      rcases this with rfl | rfl | rfl | rfl | rfl | rfl | rfl | rfl <;> rfl
    simp only [BitVec.getLsbD_or, hone, Bool.true_or]

theorem alike_exgtfrRead (reg : BitVec 32) :
    Agree (Alike (H := H)) (LowEq 16) (exgtfrRead reg) (exgtfrRead reg) := by
  unfold exgtfrRead
  split
  · exact alike_getRegD
  · exact alike_get16 .x
  · exact alike_get16 .y
  · exact alike_get16 .u
  · exact alike_get16 .s
  · exact agree_bind_eq alike_getPc fun _ => agree_pure (LowEq.refl 16 _)
  · exact alike_read_ff .a
  · exact alike_read_ff .b
  · exact alike_read_ff .cc
  · exact alike_read_ff .dp
  · exact agree_throw _

theorem alike_exgtfrWrite (reg : BitVec 32) {a b : BitVec 32} (h : LowEq 16 a b) :
    Agree (Alike (H := H)) Eq (exgtfrWrite reg a) (exgtfrWrite reg b) := by
  unfold exgtfrWrite
  split
  · exact alike_setRegD h
  · exact alike_set16 .x h
  · exact alike_set16 .y h
  · exact alike_set16 .u h
  · exact alike_set16 .s h
  · exact alike_setPc h
  · exact alike_set8 .a (h.mono (by decide))
  · exact alike_set8 .b (h.mono (by decide))
  · exact alike_set8 .cc (h.mono (by decide))
  · exact alike_set8 .dp (h.mono (by decide))
  · exact agree_throw _

theorem alike_instExg : Agree (Alike (H := H)) Eq instExg instExg :=
  agree_bind_eq alike_pcRead8 fun _ => agree_bind (alike_exgtfrRead _) fun _ _ htmp =>
    agree_bind (alike_exgtfrRead _) fun _ _ h =>
      agree_seq (alike_exgtfrWrite _ h) (alike_exgtfrWrite _ htmp)

theorem alike_instTfr : Agree (Alike (H := H)) Eq instTfr instTfr :=
  agree_bind_eq alike_pcRead8 fun _ => agree_bind (alike_exgtfrRead _) fun _ _ h =>
    alike_exgtfrWrite _ h

/-! ## The opcode switch -/

theorem alike_ea (mode : EaMode) : Agree (Alike (H := H)) (LowEq 16) (ea mode) (ea mode) := by
  cases mode with
  | direct => exact alike_eaDirect
  | indexed => exact alike_eaIndexed
  | extended => exact agree_mono alike_pcRead16 fun _ _ h => LowEq.of_eq h

theorem alike_source8 (src : Source) : Agree (Alike (H := H)) Eq (source8 src) (source8 src) := by
  cases src with
  | immediate => exact alike_pcRead8
  | memory mode => exact agree_bind (alike_ea mode) fun _ _ h => alike_read8 h

theorem alike_source16 (src : Source) : Agree (Alike (H := H)) Eq (source16 src) (source16 src) := by
  cases src with
  | immediate => exact alike_pcRead16
  | memory mode => exact agree_bind (alike_ea mode) fun _ _ h => alike_read16 h

theorem alike_getWide (r : Wide) : Agree (Alike (H := H)) (LowEq 16) (getWide r) (getWide r) := by
  cases r with
  | d => exact alike_getRegD
  | reg r => exact alike_get16 r

theorem alike_setWide (r : Wide) {a b : BitVec 32} (h : LowEq 16 a b) :
    Agree (Alike (H := H)) Eq (setWide r a) (setWide r b) := by
  cases r with
  | d => exact alike_setRegD h
  | reg r => exact alike_set16 r h

theorem alike_branchTest (test : BranchTest) :
    Agree (Alike (H := H)) Eq (branchTest test) (branchTest test) := by
  cases test with
  | ra => exact agree_pure rfl
  | hi => exact agree_bind_eq (alike_getCc _) fun _ => agree_bind_eq (alike_getCc _) fun _ => agree_pure rfl
  | hs => exact alike_getCc _
  | ne => exact alike_getCc _
  | vc => exact alike_getCc _
  | pl => exact alike_getCc _
  | ge => exact agree_bind_eq (alike_getCc _) fun _ => agree_bind_eq (alike_getCc _) fun _ => agree_pure rfl
  | gt =>
    exact agree_bind_eq (alike_getCc _) fun _ => agree_bind_eq (alike_getCc _) fun _ =>
      agree_bind_eq (alike_getCc _) fun _ => agree_pure rfl

theorem alike_instDaa : Agree (Alike (H := H)) Eq instDaa instDaa := by
  refine agree_bind (alike_get8 .a) fun a b ha => agree_bind_eq (alike_getCc .H) fun h =>
    agree_bind_eq (alike_getCc .C) fun c => ?_
  rw [ha.mask 0x0f (by decide), ha.mask 0xf0 (by decide)]
  refine agree_seq (alike_set8 .a (ha.add (LowEq.refl 8 _))) (agree_bind (alike_get8 .a) fun r r' hr => ?_)
  refine agree_seq (alike_setCc .N (testN_eq hr)) (agree_seq (alike_setCc .Z (testZ8_eq hr)) ?_)
  exact agree_seq (alike_setCc .V rfl) (alike_setCc .C (testC_eq 0 ha (LowEq.refl 8 _) hr))

/-- Every instruction but the system call. -/
theorem alike_exec (world : World H) (op : BitVec 32) (i : Instr) (hswi : i ≠ .swi) :
    Agree (Alike (H := H)) Eq (exec world op i) (exec world op i) := by
  have hend : ∀ {α : Type} {c d : M H α} {n : BitVec 32} {Q : α → α → Prop}, Agree Alike Q c d →
      Agree (Alike (H := H)) Eq (do let _ ← c; addCycles n) (do let _ ← d; addCycles n) :=
    fun h => agree_bind h fun _ _ _ => alike_addCycles _
  cases i with
  | unaryMem f mode cyc =>
    exact agree_bind (alike_ea mode) fun _ _ hea => agree_bind_eq (alike_read8 hea) fun _ =>
      agree_bind (alike_instUnary f (LowEq.refl 8 _)) fun _ _ hr => hend (alike_write8 hea hr)
  | unaryReg f r =>
    exact agree_bind (alike_get8 r) fun _ _ h => agree_bind (alike_instUnary f h) fun _ _ hr =>
      hend (alike_set8 r hr)
  | tstMem mode cyc =>
    exact agree_bind (alike_ea mode) fun _ _ hea => agree_bind_eq (alike_read8 hea) fun _ =>
      hend (alike_instTst8 (LowEq.refl 8 _))
  | tstReg r => exact agree_bind (alike_get8 r) fun _ _ h => hend (alike_instTst8 h)
  | jmp mode cyc => exact agree_bind (alike_ea mode) fun _ _ hea => hend (alike_setPc hea)
  | clrMem mode cyc =>
    exact agree_bind (alike_ea mode) fun _ _ hea => agree_seq alike_instClr
      (hend (alike_write8 hea (LowEq.refl 8 0)))
  | clrReg r => exact agree_seq alike_instClr (hend (alike_set8 r (LowEq.refl 8 0)))
  | binary8 f keep r src cyc =>
    refine agree_bind_eq (alike_source8 src) fun _ => agree_bind (alike_get8 r) fun _ _ h =>
      agree_bind (alike_instBinary8 f h (LowEq.refl 8 _)) fun _ _ hres => ?_
    exact agree_ite (hend (alike_set8 r hres)) (alike_addCycles _)
  | ld8 r src cyc =>
    exact agree_bind_eq (alike_source8 src) fun _ => agree_seq (alike_set8 r (LowEq.refl 8 _))
      (agree_bind (alike_get8 r) fun _ _ h => hend (alike_instTst8 h))
  | st8 r mode cyc =>
    exact agree_bind (alike_ea mode) fun _ _ hea => agree_bind (alike_get8 r) fun _ _ h =>
      agree_seq (alike_write8 hea h) (agree_bind (alike_get8 r) fun _ _ h => hend (alike_instTst8 h))
  | subd src cyc =>
    exact agree_bind_eq (alike_source16 src) fun _ => agree_bind alike_getRegD fun _ _ h =>
      agree_bind (alike_instSub16 h (LowEq.refl 16 _)) fun _ _ hr => hend (alike_setRegD hr)
  | addd src cyc =>
    exact agree_bind_eq (alike_source16 src) fun _ => agree_bind alike_getRegD fun _ _ h =>
      agree_bind (alike_instAdd16 h (LowEq.refl 16 _)) fun _ _ hr => hend (alike_setRegD hr)
  | cmp16 r src cyc =>
    exact agree_bind_eq (alike_source16 src) fun _ => agree_bind (alike_getWide r) fun _ _ h =>
      hend (alike_instSub16 h (LowEq.refl 16 _))
  | ld16 r src cyc =>
    exact agree_bind_eq (alike_source16 src) fun _ => agree_seq (alike_setWide r (LowEq.refl 16 _))
      (agree_bind (alike_getWide r) fun _ _ h => hend (alike_instTst16 h))
  | st16 r mode cyc =>
    exact agree_bind (alike_ea mode) fun _ _ hea => agree_bind (alike_getWide r) fun _ _ h =>
      agree_seq (alike_write16 hea h) (agree_bind (alike_getWide r) fun _ _ h => hend (alike_instTst16 h))
  | nop => exact alike_addCycles 2
  | mul =>
    refine agree_bind (alike_get8 .a) fun a a' ha => agree_bind (alike_get8 .b) fun b b' hb => ?_
    rw [ha.mask 0xff (by decide), hb.mask 0xff (by decide)]
    exact agree_seq (alike_setRegD (LowEq.refl 16 _)) (agree_seq (alike_setCc .Z rfl)
      (hend (alike_setCc .C rfl)))
  | bra8 test => exact agree_bind_eq (alike_branchTest test) fun v => alike_instBra8 v op
  | bra16 test => exact agree_bind_eq (alike_branchTest test) fun v => alike_instBra16 v op
  | lbra => exact agree_bind_eq alike_pcRead16 fun _ => hend (alike_addPc (LowEq.refl 16 _))
  | lbsr =>
    exact agree_bind_eq alike_pcRead16 fun _ => agree_bind_eq alike_getPc fun _ =>
      agree_seq (alike_push16 .s (LowEq.refl 16 _)) (hend (alike_addPc (LowEq.refl 16 _)))
  | bsr =>
    exact agree_bind_eq alike_pcRead8 fun _ => agree_bind_eq alike_getPc fun _ =>
      agree_seq (alike_push16 .s (LowEq.refl 16 _)) (hend (alike_addPc (LowEq.refl 16 _)))
  | jsr mode cyc =>
    exact agree_bind (alike_ea mode) fun _ _ hea => agree_bind_eq alike_getPc fun _ =>
      agree_seq (alike_push16 .s (LowEq.refl 16 _)) (hend (alike_setPc hea))
  | lea r zero =>
    refine agree_bind alike_eaIndexed fun _ _ hea => agree_seq (alike_set16 r hea) ?_
    exact agree_ite (agree_bind (alike_get16 r) fun _ _ h => hend (alike_setCc .Z (testZ16_eq h)))
      (alike_addCycles _)
  | psh sp other =>
    exact agree_bind_eq alike_pcRead8 fun op => agree_bind (alike_get16 other) fun _ _ h =>
      hend (alike_instPsh op sp h)
  | pul sp other => exact agree_bind_eq alike_pcRead8 fun op => hend (alike_instPul op sp other)
  | rts => exact agree_bind_eq (alike_pull16 .s) fun _ => hend (alike_setPc (LowEq.refl 16 _))
  | abx =>
    exact agree_bind (alike_get16 .x) fun _ _ hx => agree_bind (alike_get8 .b) fun _ _ hb =>
      hend (alike_set16 .x (hx.add (LowEq.of_eq (hb.mask 0xff (by decide)))))
  | orcc =>
    exact agree_bind_eq alike_pcRead8 fun _ => agree_bind (alike_get8 .cc) fun _ _ h =>
      hend (alike_set8 .cc (h.or (LowEq.refl 8 _)))
  | andcc =>
    exact agree_bind_eq alike_pcRead8 fun _ => agree_bind (alike_get8 .cc) fun _ _ h =>
      hend (alike_set8 .cc (h.and (LowEq.refl 8 _)))
  | sex =>
    exact agree_bind (alike_get8 .b) fun _ _ hb =>
      agree_seq (alike_setRegD (LowEq.of_eq (signExtend_eq hb)))
        (agree_bind (alike_get8 .a) fun _ _ ha => agree_seq (alike_setCc .N (testN_eq ha))
          (agree_bind alike_getRegD fun _ _ hd => hend (alike_setCc .Z (testZ16_eq hd))))
  | exg => exact hend alike_instExg
  | tfr => exact hend alike_instTfr
  | rti =>
    exact agree_bind_eq (alike_getCc .E) fun _ =>
      agree_ite (hend (alike_instPul _ .s .u)) (hend (alike_instPul _ .s .u))
  | swi => exact absurd rfl hswi
  | sync => exact hend (alike_setIrqStatus .sync)
  | daa => exact hend alike_instDaa
  | cwai =>
    exact agree_bind_eq alike_pcRead8 fun _ => agree_bind (alike_get8 .cc) fun _ _ h =>
      agree_seq (alike_set8 .cc (h.and (LowEq.refl 8 _))) (agree_seq (alike_setCc .E rfl)
        (agree_bind (alike_get16 .u) fun _ _ hu => agree_seq (alike_instPsh _ .s hu)
          (hend (alike_setIrqStatus .cwai))))
  | swiVector vector =>
    exact agree_seq (alike_setCc .E rfl) (agree_bind (alike_get16 .u) fun _ _ hu =>
      agree_seq (alike_instPsh _ .s hu) (agree_bind_eq (alike_read16 (LowEq.refl 16 _)) fun _ =>
        hend (alike_setPc (LowEq.refl 16 _))))

/-! ## Before the instruction -/

theorem alike_breakpointHit : Agree (Alike (H := H)) Eq breakpointHit breakpointHit := by
  intro s t h
  obtain ⟨r8, r16, h8, h16, rfl⟩ := h.split
  simp only [EStateM.run, breakpointHit]
  split
  · exact ⟨rfl, Alike.of_regs h8 h16⟩
  · exact ⟨rfl, Alike.of_regs h8 h16⟩

theorem alike_runMonitor (world : World H) :
    Agree (Alike (H := H)) Eq (runMonitor world) (runMonitor world) := by
  intro s t h
  obtain ⟨r8, r16, h8, h16, rfl⟩ := h.split
  have hregs := (Alike.of_regs (s := { s with writeBrkpt := false }) h8 h16).regs
  simp only [EStateM.run, runMonitor, ← hregs]
  split
  · exact ⟨rfl, Alike.of_regs h8 h16⟩
  · exact ⟨rfl, Alike.of_regs h8 h16⟩

theorem alike_checkBreakpoint (world : World H) :
    Agree (Alike (H := H)) Eq (checkBreakpoint world) (checkBreakpoint world) :=
  agree_bind_eq alike_breakpointHit fun _ => agree_ite (alike_runMonitor world) (agree_pure rfl)

theorem alike_enterInterrupt (vector : BitVec 32) :
    Agree (Alike (H := H)) Eq (enterInterrupt vector) (enterInterrupt vector) :=
  agree_bind_eq (alike_read16 (LowEq.refl 16 _)) fun _ =>
    agree_seq (alike_setPc (LowEq.refl 16 _)) (agree_seq (alike_setIrqStatus _) (alike_addCycles 7))

theorem alike_interruptF : Agree (Alike (H := H)) Eq interruptF interruptF := by
  have hlet : Agree (Alike (H := H)) Eq (do setCc .I 1; setCc .F 1; enterInterrupt 0xfff6)
      (do setCc .I 1; setCc .F 1; enterInterrupt 0xfff6) :=
    agree_seq (alike_setCc .I rfl) (agree_seq (alike_setCc .F rfl) (alike_enterInterrupt _))
  refine agree_bind_eq (alike_getCc .F) fun _ => agree_ite ?_ ?_
  · refine agree_bind_eq alike_getIrqStatus fun _ => agree_ite ?_ hlet
    exact agree_seq (alike_setCc .E rfl) (agree_bind (alike_get16 .u) fun _ _ hu =>
      agree_seq (alike_instPsh _ .s hu) hlet)
  · exact agree_bind_eq alike_getIrqStatus fun _ => agree_ite (alike_setIrqStatus _) (agree_pure rfl)

theorem alike_interruptI : Agree (Alike (H := H)) Eq interruptI interruptI := by
  have hlet : Agree (Alike (H := H)) Eq (do setCc .I 1; enterInterrupt 0xfff8)
      (do setCc .I 1; enterInterrupt 0xfff8) :=
    agree_seq (alike_setCc .I rfl) (alike_enterInterrupt _)
  refine agree_bind_eq (alike_getCc .I) fun _ => agree_ite ?_ ?_
  · refine agree_bind_eq alike_getIrqStatus fun _ => agree_ite ?_ hlet
    exact agree_seq (alike_setCc .E rfl) (agree_bind (alike_get16 .u) fun _ _ hu =>
      agree_seq (alike_instPsh _ .s hu) hlet)
  · exact agree_bind_eq alike_getIrqStatus fun _ => agree_ite (alike_setIrqStatus _) (agree_pure rfl)

theorem alike_prologue (world : World H) (irqI irqF : Bool) :
    Agree (Alike (H := H)) Eq (prologue world irqI irqF) (prologue world irqI irqF) := by
  have hi : Agree (Alike (H := H)) Eq (if irqI then interruptI else pure ())
      (if irqI then interruptI else pure ()) := agree_ite alike_interruptI (agree_pure rfl)
  refine agree_seq (agree_modify fun _ _ h => { h with cycles := rfl }) ?_
  exact agree_seq (alike_checkBreakpoint world) (agree_ite (agree_seq alike_interruptF hi) hi)

/-! ## The system call number -/

/-- All the bits that `get_reg_d` hands to `do_syscall`. -/
def regD (m : Machine H) : BitVec 32 := (m.reg8 .a <<< 8) ||| (m.reg8 .b &&& 0xff)

theorem regD_eq_iff {s t : Machine H} (h : Alike s t) :
    regD s = regD t ↔ s.reg8 .a <<< 8 = t.reg8 .a <<< 8 := by
  have hb : s.reg8 .b &&& 0xff = t.reg8 .b &&& 0xff := (h.reg8 .b).mask 0xff (by decide)
  -- The two halves of D do not overlap, so the upper one can be read back.
  have hhigh : ∀ m : Machine H, regD m &&& ~~~(0xff : BitVec 32) = m.reg8 .a <<< 8 := by
    intro m
    apply BitVec.eq_of_getLsbD_eq
    intro i hi
    have hff : (0xff : BitVec 32).getLsbD i = decide (i < 8) := by
      rw [BitVec.getLsbD, show (0xff : BitVec 32).toNat = 2 ^ 8 - 1 from rfl, Nat.testBit_two_pow_sub_one]
    simp only [regD, BitVec.getLsbD_and, BitVec.getLsbD_or, BitVec.getLsbD_not, BitVec.getLsbD_shiftLeft,
      hff, hi, decide_true, Bool.true_and]
    by_cases hlow : i < 8 <;> simp [hlow]
  constructor
  · intro heq
    rw [← hhigh s, ← hhigh t, heq]
  · intro ha
    rw [regD, regD, ha, hb]

theorem instSwi_run (world : World H) (m : Machine H) :
    (instSwi world).run m = (match world.doSyscall (regD m) (e6809GetRegs m).s m.mem m.host with
      | .error stop => .error stop { m with accesses := .syscall (regD m) :: m.accesses }
      | .ok (result, longresult, errno, mem, host) =>
        (afterSyscall result longresult errno).run
          { m with accesses := .syscall (regD m) :: m.accesses, mem := mem, host := host }) := rfl

theorem alike_afterSyscall (result longresult errno : BitVec 32) :
    Agree (Alike (H := H)) Eq (afterSyscall result longresult errno)
      (afterSyscall result longresult errno) :=
  agree_seq (alike_set16 .x (LowEq.refl 16 _)) (agree_seq (alike_setRegD (LowEq.refl 16 _))
    (agree_ite (alike_set16 .y (LowEq.refl 16 _)) (agree_pure rfl)))

/-- Once D is the same in all its bits, the system call is the same. -/
theorem alike_instSwi (world : World H) {s t : Machine H} (h : Alike s t) (hd : regD s = regD t) :
    AgreeResult Alike Eq ((instSwi world).run s) ((instSwi world).run t) := by
  have hregs := h.regs
  obtain ⟨r8, r16, h8, h16, rfl⟩ := h.split
  rw [instSwi_run, instSwi_run, ← hregs, ← hd]
  simp only
  cases world.doSyscall (regD s) (e6809GetRegs s).s s.mem s.host with
  | error stop => exact ⟨rfl, Alike.of_regs h8 h16⟩
  | ok r => exact alike_afterSyscall _ _ _ _ _ (Alike.of_regs h8 h16)

/-- What a step can see of the garbage: the number goes into the list of accesses. -/
theorem instSwi_accesses (world : World H) (m : Machine H) :
    (endState ((instSwi world).run m)).accesses = .syscall (regD m) :: m.accesses := by
  rw [instSwi_run]
  cases world.doSyscall (regD m) (e6809GetRegs m).s m.mem m.host with
  | error stop => rfl
  | ok r =>
    obtain ⟨result, longresult, errno, mem, host⟩ := r
    by_cases hlong : longresult ≠ 0
    · simp only [afterSyscall, if_pos hlong]
      rfl
    · simp only [afterSyscall, if_neg hlong]
      rfl

/-! ## The step -/

/-- Only 0x3F of page 0 is a system call. -/
theorem swi_opcode :
    (page0.all fun e => e.2 ≠ .swi || e.1 = 0x3F) ∧ (page1.all fun e => e.2 ≠ .swi) ∧
      (page2.all fun e => e.2 ≠ .swi) := by
  decide

theorem alike_execFrom (world : World H) {page : List (BitVec 8 × Instr)} {name : String} {op : BitVec 32}
    (hpage : ∀ i, (op.setWidth 8, i) ∈ page → i ≠ .swi) :
    Agree (Alike (H := H)) Eq (execFrom world page name op) (execFrom world page name op) := by
  unfold execFrom
  split
  · next i hi => exact alike_exec world op i (hpage i (decode_mem hi))
  · exact agree_throw _

theorem alike_dispatchOn (world : World H) (op : BitVec 32) (hop : op.setWidth 8 ≠ 0x3F#8) :
    Agree (Alike (H := H)) Eq (dispatchOn world op) (dispatchOn world op) := by
  obtain ⟨h0, h1, h2⟩ := swi_opcode
  rw [List.all_eq_true] at h0 h1 h2
  refine agree_ite (agree_bind_eq alike_pcRead8 fun op => alike_execFrom world fun i hi => ?_)
    (agree_ite (agree_bind_eq alike_pcRead8 fun op => alike_execFrom world fun i hi => ?_)
      (alike_execFrom world fun i hi hswi => hop ?_))
  · simpa using h1 _ hi
  · simpa using h2 _ hi
  · simpa [hswi] using h0 _ hi

theorem Alike.opcodeAt {s t : Machine H} (h : Alike s t) : opcodeAt s = Cpu6809.opcodeAt t := by
  rw [Cpu6809.opcodeAt, Cpu6809.opcodeAt, h.mem, h.regPc]

theorem Alike.afterFetch {s t : Machine H} (h : Alike s t) : Alike (afterFetch s) (Cpu6809.afterFetch t) := by
  obtain ⟨r8, r16, h8, h16, rfl⟩ := h.split
  exact Alike.of_regs h8 h16

theorem exec_swi_accesses (world : World H) (op : BitVec 32) (m : Machine H) :
    (endState ((exec world op .swi).run m)).accesses = .syscall (regD m) :: m.accesses := by
  rw [← instSwi_accesses world m]
  have hrun : (exec world op .swi).run m = EStateM.bind (instSwi world) (fun _ => addCycles 7) m := rfl
  rw [hrun, EStateM.bind, EStateM.run]
  cases instSwi world m <;> rfl

/-- The instruction is the same on both machines, unless it hands different numbers to
`do_syscall`. -/
theorem alike_dispatch_iff (world : World H) {s t : Machine H} (h : Alike s t) :
    AgreeResult Alike Eq ((dispatch world).run s) ((dispatch world).run t) ↔
      (opcodeAt s = 0x3F → s.reg8 .a <<< 8 = t.reg8 .a <<< 8) := by
  have hfetch : Alike (afterFetch s) (afterFetch t) := h.afterFetch
  rw [dispatch_run, dispatch_run, ← h.opcodeAt]
  by_cases hop : opcodeAt s = 0x3F
  · have hswi : ∀ m : Machine H, (dispatchOn world ((0x3F : BitVec 8).setWidth 32)).run m =
        (exec world 0x3F .swi).run m := fun _ => rfl
    rw [hop, hswi, hswi]
    constructor
    · intro hagree _
      have hacc := hagree.endState.accesses
      rw [exec_swi_accesses, exec_swi_accesses, List.cons.injEq, Access.syscall.injEq] at hacc
      exact (regD_eq_iff hfetch).mp hacc.1
    · intro ha
      exact (alike_instSwi world hfetch ((regD_eq_iff hfetch).mpr (ha rfl))).bind fun _ _ _ => alike_addCycles 7
  · refine iff_of_true ?_ fun h3f => absurd h3f hop
    exact alike_dispatchOn world _ (by simpa using hop) _ _ hfetch

/-- The step gets as far as a system call: no interrupt status holds it back, and the byte at
the program counter is then 0x3F. -/
def ReachesSwi (world : World H) (irqI irqF : Bool) (s : Machine H) : Prop :=
  ∃ s', (prologue world irqI irqF).run s = .ok () s' ∧ s'.irqStatus = .normal ∧ opcodeAt s' = 0x3F

theorem alike_rest_waiting (world : World H) {s t : Machine H} (h : Alike s t)
    (hirq : s.irqStatus ≠ .normal) :
    AgreeResult Alike Eq ((sstepRest world).run s) ((sstepRest world).run t) := by
  have hrun : ∀ m : Machine H, m.irqStatus ≠ .normal → (sstepRest world).run m = .ok (m.cycles + 1) m := by
    intro m hm
    simp only [sstepRest, EStateM.run, bind, EStateM.bind, getIrqStatus, if_pos hm]
    rfl
  rw [hrun s hirq, hrun t (h.irqStatus ▸ hirq), h.cycles]
  exact ⟨rfl, h⟩

/-- Returning the program counter adds nothing to what the instruction shows. -/
theorem alike_rest_iff (world : World H) {s t : Machine H} (h : Alike s t) (hirq : s.irqStatus = .normal) :
    AgreeResult Alike Eq ((sstepRest world).run s) ((sstepRest world).run t) ↔
      AgreeResult Alike Eq ((dispatch world).run s) ((dispatch world).run t) := by
  have hrun : ∀ m : Machine H, m.irqStatus = .normal → (sstepRest world).run m =
      (dispatch world >>= fun _ => do return (← getPc).setWidth 32).run m := by
    intro m hm
    simp only [sstepRest, EStateM.run, bind, EStateM.bind, getIrqStatus, hm, ne_eq, not_true_eq_false,
      if_false]
  rw [hrun s hirq, hrun t (h.irqStatus ▸ hirq)]
  constructor
  · intro hagree
    simp only [EStateM.run, bind, EStateM.bind] at hagree ⊢
    generalize dispatch world s = rs at hagree ⊢
    generalize dispatch world t = rt at hagree ⊢
    match rs, rt, hagree with
    | .ok _ _, .ok _ _, hagree => exact ⟨rfl, hagree.2⟩
    | .error _ _, .error _ _, hagree => exact hagree
  · intro hagree
    exact hagree.bind fun _ _ _ => agree_bind_eq alike_getPc fun _ => agree_pure rfl

/-- One step from two alike machines does the same accesses and ends in alike machines exactly
when it is no system call, or the bits of A that the call number takes agree too. -/
theorem sstep_alike_iff (world : World H) (irqI irqF : Bool) (s t : Machine H) (h : Alike s t) :
    AgreeResult Alike Eq ((e6809Sstep world irqI irqF).run s) ((e6809Sstep world irqI irqF).run t) ↔
      (ReachesSwi world irqI irqF s → s.reg8 .a <<< 8 = t.reg8 .a <<< 8) := by
  have hsplit : e6809Sstep world irqI irqF = prologue world irqI irqF >>= fun _ => sstepRest world := rfl
  have hkeep := keeps_prologue (H := H) untouched_regA world irqI irqF
  have hpro := alike_prologue world irqI irqF s t h
  rw [hsplit, ReachesSwi]
  simp only [EStateM.run, bind, EStateM.bind] at hpro ⊢
  cases hs : prologue world irqI irqF s with
  | error e s' =>
    cases ht : prologue world irqI irqF t with
    | error f t' =>
      rw [hs, ht] at hpro
      refine iff_of_true hpro ?_
      rintro ⟨s'', hok, -⟩
      cases hok
    | ok u t' =>
      rw [hs, ht] at hpro
      exact absurd hpro id
  | ok u s' =>
    cases ht : prologue world irqI irqF t with
    | error f t' =>
      rw [hs, ht] at hpro
      exact absurd hpro id
    | ok v t' =>
      rw [hs, ht] at hpro
      obtain ⟨-, halike⟩ := hpro
      have hsa : s'.reg8 .a = s.reg8 .a := by simpa only [EStateM.run, hs, endState] using hkeep s
      have hta : t'.reg8 .a = t.reg8 .a := by simpa only [EStateM.run, ht, endState] using hkeep t
      by_cases hirq : s'.irqStatus = .normal
      · refine (alike_rest_iff world halike hirq).trans ((alike_dispatch_iff world halike).trans ?_)
        rw [hsa, hta]
        constructor
        · rintro hop ⟨s'', hok, -, h3f⟩
          cases hok
          exact hop h3f
        · intro hreach h3f
          exact hreach ⟨s', rfl, hirq, h3f⟩
      · refine iff_of_true (alike_rest_waiting world halike hirq) ?_
        rintro ⟨s'', hok, hnormal, -⟩
        cases hok
        exact absurd hnormal hirq

/-! ## The defect at work -/

/-- A machine that is about to execute SWI, with `a` in the register A. -/
def swiMachine (a : BitVec 32) : Machine Unit :=
  { clearMachine fun _ => 0x3F with reg8 := fun r => if r = .a then a else 0 }

theorem swiMachine_alike : Alike (swiMachine 0x100) (swiMachine 0) := by
  refine ⟨fun r => ?_, fun r => LowEq.refl 16 _, rfl, rfl, rfl, rfl, rfl, rfl, rfl, rfl, rfl⟩
  cases r <;> decide

/-- Garbage above the 8 bits of A makes SWI call a different system call. -/
theorem swi_number_takes_garbage :
    Alike (swiMachine 0x100) (swiMachine 0) ∧
      ¬ AgreeResult Alike Eq ((e6809Sstep quietWorld false false).run (swiMachine 0x100))
        ((e6809Sstep quietWorld false false).run (swiMachine 0)) := by
  refine ⟨swiMachine_alike, fun h => ?_⟩
  have hacc := h.endState.accesses
  exact absurd hacc (by decide)

/-- The same two machines, seen through the equivalence. -/
theorem sstep_alike_iff_swiMachine :
    AgreeResult Alike Eq ((e6809Sstep quietWorld false false).run (swiMachine 0x100))
      ((e6809Sstep quietWorld false false).run (swiMachine 0)) ↔
      (ReachesSwi quietWorld false false (swiMachine 0x100) →
        (swiMachine 0x100).reg8 .a <<< 8 = (swiMachine 0).reg8 .a <<< 8) :=
  sstep_alike_iff quietWorld false false (swiMachine 0x100) (swiMachine 0) swiMachine_alike

end Fuzemsys.Emulators.Cpu6809
