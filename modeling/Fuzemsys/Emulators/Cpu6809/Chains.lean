import Fuzemsys.Lib.Ripple
import Fuzemsys.Emulators.Cpu6809.Flags
import Fuzemsys.Emulators.Cpu6809.Frame

/-!
# Arithmetic on numbers of many bytes

A long number is added, subtracted, doubled or halved byte by byte: `ADD` then
`ADC`, `SUB` then `SBC`, `ASL` then `ROL`, `LSR` then `ROR`. Between two of these
instructions a program may do anything that leaves the carry alone.
-/

namespace Fuzemsys.Emulators.Cpu6809

open Fuzemsys.Emulators Fuzemsys.Lib

variable {H : Type} {world : World H} {m t m' : Machine H} {i : Instr} {op : BitVec 8}

/-! ## Executing an instruction -/

/-- The instruction at the program counter, its last opcode byte, and the machine that fetched it. -/
inductive Decodes (m : Machine H) : Instr → BitVec 8 → Machine H → Prop
  | plain {i : Instr} (h : decode page0 (opcodeAt m) = some i) : Decodes m i (opcodeAt m) (afterFetch m)
  | after10 {i : Instr} (hp : opcodeAt m = 0x10) (h : decode page1 (opcodeAt (afterFetch m)) = some i) :
    Decodes m i (opcodeAt (afterFetch m)) (afterFetch (afterFetch m))
  | after11 {i : Instr} (hp : opcodeAt m = 0x11) (h : decode page2 (opcodeAt (afterFetch m)) = some i) :
    Decodes m i (opcodeAt (afterFetch m)) (afterFetch (afterFetch m))

theorem Decodes.dispatch (h : Decodes m i op t) (world : World H) :
    (dispatch world).run m = (exec world (op.setWidth 32) i).run t := by
  rw [dispatch_run, dispatchOn_byte]
  cases h with
  | plain h =>
    have h10 : opcodeAt m ≠ 0x10 := by
      intro he
      rw [he, show decode page0 0x10 = none by decide] at h
      cases h
    have h11 : opcodeAt m ≠ 0x11 := by
      intro he
      rw [he, show decode page0 0x11 = none by decide] at h
      cases h
    rw [if_neg h10, if_neg h11, execFrom]
    simp [h]
  | after10 hp h =>
    have hfetch := pcRead8_run (afterFetch m)
    simp only [EStateM.run] at hfetch ⊢
    rw [if_pos hp]
    simp [bind, EStateM.bind, hfetch, execFrom, h]
  | after11 hp h =>
    have hfetch := pcRead8_run (afterFetch m)
    simp only [EStateM.run] at hfetch ⊢
    rw [if_neg (by rw [hp]; decide), if_pos hp]
    simp [bind, EStateM.bind, hfetch, execFrom, h]

theorem Decodes.reg8 (h : Decodes m i op t) : t.reg8 = m.reg8 := by
  cases h <;> rfl

/-- No opcode works on the condition codes as on an accumulator. -/
def usesCc : Instr → Bool
  | .unaryReg _ .cc => true
  | .binary8 _ _ .cc _ _ => true
  | _ => false

theorem Decodes.spares_cc (h : Decodes m i op t) : usesCc i = false := by
  have hpages : ∀ e ∈ page0 ++ page1 ++ page2, usesCc e.2 = false := by decide +kernel
  cases h with
  | plain h => exact hpages (_, i) (List.mem_append_left _ (List.mem_append_left _ (decode_mem h)))
  | after10 hp h => exact hpages (_, i) (List.mem_append_left _ (List.mem_append_right _ (decode_mem h)))
  | after11 hp h => exact hpages (_, i) (List.mem_append_right _ (decode_mem h))

/-! ## Reading an operand -/

section Reads

@[simp]
theorem keeps_reg8_set16 (r : Reg16) (v : BitVec 32) : Keeps Machine.reg8 (set16 (H := H) r v) := fun _ => rfl

@[simp]
theorem keeps_reg8_addCycles (n : BitVec 32) : Keeps Machine.reg8 (addCycles (H := H) n) := fun _ => rfl

@[simp]
theorem keeps_reg8_read8 (a : BitVec 32) : Keeps Machine.reg8 (read8 (H := H) a) := fun _ => rfl

@[simp]
theorem keeps_reg8_pcRead8 : Keeps Machine.reg8 (pcRead8 (H := H)) := fun _ => rfl

@[simp]
theorem keeps_reg8_pcRead16 : Keeps Machine.reg8 (pcRead16 (H := H)) := fun _ => rfl

@[simp]
theorem keeps_reg8_read16 (a : BitVec 32) : Keeps Machine.reg8 (read16 (H := H) a) := fun _ => rfl

@[simp]
theorem keeps_reg8_indirectly (b : Bool) (a : BitVec 32) : Keeps Machine.reg8 (indirectly (H := H) b a) := by
  cases b <;> simp [indirectly]

theorem keeps_reg8_ea (mode : EaMode) : Keeps Machine.reg8 (ea (H := H) mode) := by
  cases mode with
  | direct => exact keeps_bind (keeps_get8 .dp) fun _ => keeps_bind keeps_reg8_pcRead8 fun _ => keeps_pure _
  | extended => exact keeps_reg8_pcRead16
  | indexed =>
    unfold ea eaIndexed
    refine keeps_bind keeps_reg8_pcRead8 fun op => ?_
    split
    all_goals
      repeat refine keeps_bind (by simp) fun _ => ?_
      simp

theorem keeps_reg8_source8 (src : Source) : Keeps Machine.reg8 (source8 (H := H) src) := by
  cases src with
  | immediate => exact keeps_reg8_pcRead8
  | memory mode => exact keeps_bind (keeps_reg8_ea mode) fun a => keeps_reg8_read8 a

end Reads

/-! ## One byte of a chain -/

/-- Two operand bytes and the byte that becomes of them. -/
structure Digit where
  x : BitVec 8
  y : BitVec 8
  z : BitVec 8
  deriving DecidableEq

def byteOf (r : Reg8) (m : Machine H) : BitVec 8 := (m.reg8 r).setWidth 8

/-- The instruction `f` on register `r`: `x` is in the register, `y` the operand, `z` left there. -/
def Applies (world : World H) (f : Binary8) (r : Reg8) (d : Digit) (m m' : Machine H) : Prop :=
  ∃ src cyc op t u, Decodes m (.binary8 f true r src cyc) op t ∧
    source8 src t = .ok (d.y.setWidth 32) u ∧ dispatch world m = .ok () m' ∧
      byteOf r m = d.x ∧ byteOf r m' = d.z

/-- What an executed instruction on a register did to the flags and to the register. -/
theorem Applies.result {f : Binary8} {r : Reg8} {d : Digit} (h : Applies world f r d m m') :
    ∃ (u : Machine H) (res : BitVec 32) (v : Machine H), u.reg8 = m.reg8 ∧ instBinary8 f (m.reg8 r) (d.y.setWidth 32) u = .ok res v ∧
      d.x = byteOf r m ∧ d.z = res.setWidth 8 ∧ (∀ g, flag g m' = flag g v) := by
  obtain ⟨src, cyc, op, t, u, hdec, hsrc, hrun, hx, hz⟩ := h
  have hcc := hdec.spares_cc
  have hr : r ≠ .cc := by
    rintro rfl
    cases hcc
  have hu : u.reg8 = m.reg8 := by
    have hkeep := keeps_reg8_source8 src t
    simp only [EStateM.run, hsrc] at hkeep
    exact hkeep.trans hdec.reg8
  have hexec := hdec.dispatch world
  simp only [EStateM.run, hrun, exec, bind, EStateM.bind, hsrc, get8] at hexec
  rw [hu] at hexec
  cases hinst : instBinary8 f (m.reg8 r) (d.y.setWidth 32) u with
  | error e v =>
    rw [hinst] at hexec
    cases hexec
  | ok res v =>
    rw [hinst] at hexec
    cases hexec
    refine ⟨u, res, v, hu, hinst, hx.symm, ?_, ?_⟩
    · rw [← hz]
      simp [byteOf]
    · intro g
      simp [flag, hr.symm]

/-! ## The law of one byte -/

def carry (m : Machine H) : Nat := (flag .C m).toNat

/-- The sign of the exact signed result, as the flags tell it. -/
def negative (m : Machine H) : Bool := flag .N m ^^ flag .V m

theorem carry_le (m : Machine H) : carry m ≤ 1 := Bool.toNat_le _

theorem carry_eq_one (m : Machine H) : carry m = 1 ↔ flag .C m = true := by
  cases h : flag .C m <;> simp [carry, h]

section Byte

variable {r : Reg8} {d : Digit}

theorem byte_add {u : Machine H} {c : Bool} (hx : d.x = byteOf r m)
    (hz : d.z = (m.reg8 r + d.y.setWidth 32 + ofBit c).setWidth 8)
    (hflags : ∀ g, flag g m' = flag g (withByteSum (m.reg8 r) (d.y.setWidth 32) c false u)) :
    d.x.toNat + d.y.toNat + c.toNat = d.z.toNat + 256 * carry m' ∧
      negative m' = decide (d.x.toInt + d.y.toInt + (c.toNat : Int) < 0) := by
  have hsum := sum_toNat (m.reg8 r) (d.y.setWidth 32) c 8 (by omega)
  have hy : (d.y.setWidth 32).setWidth 8 = d.y := by simp
  simp only [carry, negative, hflags, flag_C_byteSum, sign_byteSum, hy]
  rw [hy] at hsum
  rw [hx, hz, Bool.xor_false]
  exact ⟨hsum, rfl⟩

theorem byte_sub {u : Machine H} {c : Bool} (hx : d.x = byteOf r m)
    (hz : d.z = (m.reg8 r + ~~~d.y.setWidth 32 + ofBit (!c)).setWidth 8)
    (hflags : ∀ g, flag g m' = flag g (withByteSum (m.reg8 r) (~~~d.y.setWidth 32) (!c) true u)) :
    d.y.toNat + d.z.toNat + c.toNat = d.x.toNat + 256 * carry m' ∧
      negative m' = decide (d.x.toInt - d.y.toInt - (c.toNat : Int) < 0) := by
  have hsum := sum_toNat (m.reg8 r) (~~~d.y.setWidth 32) (!c) 8 (by omega)
  have hy : (~~~d.y.setWidth 32 : BitVec 32).setWidth 8 = ~~~d.y := by
    rw [BitVec.setWidth_not (by omega)]
    simp
  have hnot : (~~~d.y).toNat = 255 - d.y.toNat := by simp
  have hnotInt : (~~~d.y).toInt = -1 - d.y.toInt := by
    rw [BitVec.toInt_eq_toNat_cond, BitVec.toInt_eq_toNat_cond, hnot]
    have := d.y.isLt
    split <;> split <;> omega
  have hlt := d.y.isLt
  simp only [carry, negative, hflags, flag_C_byteSum, sign_byteSum, hy, hnotInt]
  rw [hy, hnot] at hsum
  rw [hx, hz, byteOf]
  refine ⟨?_, ?_⟩
  · generalize BitVec.carry 8 (m.reg8 r) (~~~d.y.setWidth 32) (!c) = out at hsum ⊢
    cases c <;> cases out <;>
      simp only [Bool.not_true, Bool.not_false, Bool.xor_true, Bool.toNat_true, Bool.toNat_false] at hsum ⊢ <;>
      omega
  · cases c <;> simp <;> omega

theorem Applies.add8 (h : Applies world .add8 r d m m') :
    d.x.toNat + d.y.toNat = d.z.toNat + 256 * carry m' ∧ negative m' = decide (d.x.toInt + d.y.toInt < 0) := by
  obtain ⟨u, res, v, hu, hinst, hx, hz, hflags⟩ := h.result
  rw [instBinary8, instAdd8_run] at hinst
  cases hinst
  simpa using byte_add hx hz hflags

theorem Applies.adc (h : Applies world .adc r d m m') :
    d.x.toNat + d.y.toNat + carry m = d.z.toNat + 256 * carry m' ∧
      negative m' = decide (d.x.toInt + d.y.toInt + (carry m : Int) < 0) := by
  obtain ⟨u, res, v, hu, hinst, hx, hz, hflags⟩ := h.result
  have hc : flag .C u = flag .C m := by rw [flag, hu, flag]
  rw [instBinary8, instAdc_run, hc] at hinst
  cases hinst
  exact byte_add hx hz hflags

theorem Applies.sub8 (h : Applies world .sub8 r d m m') :
    d.y.toNat + d.z.toNat = d.x.toNat + 256 * carry m' ∧ negative m' = decide (d.x.toInt - d.y.toInt < 0) := by
  obtain ⟨u, res, v, hu, hinst, hx, hz, hflags⟩ := h.result
  rw [instBinary8, instSub8_run, ← Bool.not_false] at hinst
  cases hinst
  simpa using byte_sub hx hz hflags

theorem Applies.sbc (h : Applies world .sbc r d m m') :
    d.y.toNat + d.z.toNat + carry m = d.x.toNat + 256 * carry m' ∧
      negative m' = decide (d.x.toInt - d.y.toInt - (carry m : Int) < 0) := by
  obtain ⟨u, res, v, hu, hinst, hx, hz, hflags⟩ := h.result
  have hc : flag .C u = flag .C m := by rw [flag, hu, flag]
  rw [instBinary8, instSbc_run, hc] at hinst
  cases hinst
  exact byte_sub hx hz hflags

end Byte

/-! ## Shifts -/

/-- A shift of a byte, in a register or in memory: what the byte was and what is left there. -/
inductive Shifts (world : World H) (f : Unary) : BitVec 8 × BitVec 8 → Machine H → Machine H → Prop
  | reg {m m' t : Machine H} {r : Reg8} {op : BitVec 8} (hdec : Decodes m (.unaryReg f r) op t)
      (hrun : dispatch world m = .ok () m') : Shifts world f (byteOf r m, byteOf r m') m m'
  | mem {m m' t u : Machine H} {mode : EaMode} {cyc : Nat} {op : BitVec 8} {a : BitVec 32} {z : BitVec 8}
      (hdec : Decodes m (.unaryMem f mode cyc) op t) (hea : ea mode t = .ok a u)
      (hrun : dispatch world m = .ok () m') (hz : m'.accesses.head? = some (.write (a &&& 0xffff) z)) :
      Shifts world f (e6809Read8 u.mem (a &&& 0xffff), z) m m'

theorem write8_ok {a data : BitVec 32} {v v' : Machine H} (h : write8 a data v = .ok () v') :
    v'.reg8 = v.reg8 ∧ v'.accesses = .write (a &&& 0xffff) (data.setWidth 8) :: v.accesses := by
  unfold write8 at h
  simp only at h
  split at h
  · cases h
  · cases h
    exact ⟨rfl, rfl⟩

theorem Shifts.result {f : Unary} {d : BitVec 8 × BitVec 8} (h : Shifts world f d m m') :
    ∃ (u : Machine H) (data res : BitVec 32) (v : Machine H), u.reg8 = m.reg8 ∧
      instUnary f data u = .ok res v ∧ d.1 = data.setWidth 8 ∧ d.2 = res.setWidth 8 ∧
      (∀ g, flag g m' = flag g v) := by
  cases h with
  | @reg _ _ t r op hdec hrun =>
    have hcc := hdec.spares_cc
    have hr : r ≠ .cc := by
      rintro rfl
      cases hcc
    have hexec := hdec.dispatch world
    simp only [EStateM.run, hrun, exec, bind, EStateM.bind, get8] at hexec
    rw [hdec.reg8] at hexec
    cases hinst : instUnary f (m.reg8 r) t with
    | error e v =>
      rw [hinst] at hexec
      cases hexec
    | ok res v =>
      rw [hinst] at hexec
      cases hexec
      refine ⟨t, _, res, v, hdec.reg8, hinst, rfl, by simp [byteOf], fun g => ?_⟩
      simp [flag, hr.symm]
  | @mem _ _ t u mode cyc op a z hdec hea hrun hz =>
    have hu : u.reg8 = m.reg8 := by
      have hkeep := keeps_reg8_ea mode t
      simp only [EStateM.run, hea] at hkeep
      exact hkeep.trans hdec.reg8
    have hexec := hdec.dispatch world
    simp only [EStateM.run, hrun, exec, bind, EStateM.bind, hea, read8] at hexec
    split at hexec
    · next res v hinst =>
      split at hexec
      · next v' hv' =>
        obtain ⟨hregs, haccess⟩ := write8_ok hv'
        cases hexec
        have hz' : z = res.setWidth 8 := by
          simp only [haccess, List.head?_cons, Option.some.injEq, Access.write.injEq, true_and] at hz
          exact hz.symm
        refine ⟨_, (e6809Read8 u.mem (a &&& 0xffff)).setWidth 32, res, v, ?_, hinst, by simp, hz', fun g => ?_⟩
        · exact hu
        · simp [flag, hregs]
      · cases hexec
    · cases hexec

/-- Half of a byte, with the bit that comes in at the top. -/
theorem shiftedRight_toNat (data : BitVec 32) (c : Bool) :
    (data.setWidth 8).toNat + 256 * c.toNat =
      2 * ((shiftedRight data c).setWidth 8).toNat + (data.getLsbD 0).toNat := by
  have hbit : (data.getLsbD 0).toNat = data.toNat % 2 := by
    rw [BitVec.getLsbD, Nat.testBit_zero]
    obtain h | h : data.toNat % 2 = 0 ∨ data.toNat % 2 = 1 := by omega
    · simp [h]
    · simp [h]
  have hand : ((data >>> 1) &&& 0x7f).toNat = data.toNat / 2 % 128 := by
    rw [BitVec.toNat_and, BitVec.toNat_ushiftRight, Nat.shiftRight_eq_div_pow,
      show (0x7f : BitVec 32).toNat = 2 ^ 7 - 1 from rfl, Nat.and_two_pow_sub_one_eq_mod]
  have hc : (ofBit c <<< 7).toNat = c.toNat <<< 7 := by cases c <;> rfl
  have hor : (shiftedRight data c).toNat = 128 * c.toNat + data.toNat / 2 % 128 := by
    rw [shiftedRight, BitVec.toNat_or, hand, hc, Nat.or_comm,
      ← Nat.shiftLeft_add_eq_or_of_lt (Nat.mod_lt _ (by decide)), Nat.shiftLeft_eq, Nat.mul_comm]
  have hc1 : c.toNat ≤ 1 := Bool.toNat_le c
  rw [BitVec.toNat_setWidth, BitVec.toNat_setWidth, hor, hbit]
  omega

section Shift

variable {d : BitVec 8 × BitVec 8}

theorem Shifts.asl (h : Shifts world .asl d m m') : d.1.toNat + d.1.toNat = d.2.toNat + 256 * carry m' := by
  obtain ⟨u, data, res, v, hu, hinst, hx, hz, hflags⟩ := h.result
  rw [instUnary, instAsl_run] at hinst
  cases hinst
  have hsum := sum_toNat data data false 8 (by omega)
  rw [hx, hz, carry, hflags, flag_C_byteSum, Bool.xor_false]
  exact hsum

theorem Shifts.rol (h : Shifts world .rol d m m') :
    d.1.toNat + d.1.toNat + carry m = d.2.toNat + 256 * carry m' := by
  obtain ⟨u, data, res, v, hu, hinst, hx, hz, hflags⟩ := h.result
  have hc : flag .C u = flag .C m := by rw [flag, hu, flag]
  rw [instUnary, instRol_run, hc] at hinst
  cases hinst
  have hsum := sum_toNat data data (flag .C m) 8 (by omega)
  rw [hx, hz, carry, carry, hflags, flag_C_byteSum, Bool.xor_false]
  exact hsum

theorem Shifts.lsr (h : Shifts world .lsr d m m') : d.1.toNat = 2 * d.2.toNat + carry m' := by
  obtain ⟨u, data, res, v, hu, hinst, hx, hz, hflags⟩ := h.result
  rw [instUnary, instLsr_run] at hinst
  cases hinst
  have hhalf := shiftedRight_toNat data false
  rw [hx, hz, carry, hflags, flag_C_shift]
  simpa using hhalf

theorem Shifts.ror (h : Shifts world .ror d m m') :
    d.1.toNat + 256 * carry m = 2 * d.2.toNat + carry m' := by
  obtain ⟨u, data, res, v, hu, hinst, hx, hz, hflags⟩ := h.result
  have hc : flag .C u = flag .C m := by rw [flag, hu, flag]
  rw [instUnary, instRor_run, hc] at hinst
  cases hinst
  rw [hx, hz, carry, carry, hflags, flag_C_shift]
  exact shiftedRight_toNat data (flag .C m)

end Shift

end Fuzemsys.Emulators.Cpu6809
