import Fuzemsys.Lib.Keeps
import Fuzemsys.Lib.LowBits
import Fuzemsys.Emulators.Cpu6809.Step

/-!
# What the condition codes mean

The flag tests work on 32-bit words whose upper bits mean nothing. Here they are
read as what they say about bytes and words: a carry, a sign, an overflow.
-/

namespace Fuzemsys.Emulators.Cpu6809

open Fuzemsys.Emulators Fuzemsys.Lib

variable {H : Type}

/-! ## The flags of a machine -/

/-- Which bit of the condition code register the flag is. -/
def Flag.index : Flag → Nat
  | .E => 7
  | .F => 6
  | .H => 5
  | .I => 4
  | .N => 3
  | .Z => 2
  | .V => 1
  | .C => 0

def flag (f : Flag) (m : Machine H) : Bool := (m.reg8 .cc).getLsbD f.index

def ofBit (b : Bool) : BitVec 32 := (BitVec.ofBool b).setWidth 32

def withFlag (f : Flag) (b : Bool) (m : Machine H) : Machine H :=
  { m with reg8 := Function.update m.reg8 .cc ((m.reg8 .cc &&& ~~~f.val) ||| ofBit b * f.val) }

theorem shr_and_one (x : BitVec 32) (k : Nat) : (x >>> k) &&& 1 = ofBit (x.getLsbD k) := by
  apply BitVec.eq_of_getLsbD_eq
  intro i hi
  cases i with
  | zero => cases h : x.getLsbD k <;> simp [h, ofBit]
  | succ i => cases h : x.getLsbD k <;> simp [ofBit, BitVec.getLsbD_one]

theorem flag_val (f : Flag) : f.val = BitVec.twoPow 32 f.index := by
  cases f <;> rfl

theorem index_lt (f : Flag) : f.index < 8 := by
  cases f <;> decide

theorem index_inj {f g : Flag} (h : f.index = g.index) : f = g := by
  cases f <;> cases g <;> first | rfl | cases h

@[simp]
theorem getCc_run (f : Flag) (m : Machine H) : getCc f m = .ok (ofBit (flag f m)) m := by
  have hdiv : (m.reg8 .cc / f.val) &&& 1 = ofBit (flag f m) := by
    rw [flag_val, BitVec.udiv_twoPow_eq_of_lt (by have := index_lt f; omega), shr_and_one]
    rfl
  rw [← hdiv]
  rfl

@[simp]
theorem setCc_run (f : Flag) (b : Bool) (m : Machine H) : setCc f (ofBit b) m = .ok () (withFlag f b m) := rfl

@[simp]
theorem flag_withFlag (f g : Flag) (b : Bool) (m : Machine H) :
    flag g (withFlag f b m) = if g = f then b else flag g m := by
  have hf := index_lt f
  have hg := index_lt g
  have hmul : ofBit b * f.val = if b then BitVec.twoPow 32 f.index else 0 := by
    cases b <;> simp [ofBit, flag_val, BitVec.twoPow]
  simp only [flag, withFlag, Function.update_self, hmul]
  rw [flag_val]
  by_cases h : g = f
  · subst h
    have hwide : g.index < 32 := by omega
    cases b <;> simp [hwide]
  · have hne : g.index ≠ f.index := fun he => h (index_inj he)
    have hwide : g.index < 32 := by omega
    cases b <;> simp [hne, h, hwide]

@[simp]
theorem reg8_withFlag {r : Reg8} (hr : r ≠ .cc) (f : Flag) (b : Bool) (m : Machine H) :
    (withFlag f b m).reg8 r = m.reg8 r := by
  simp [withFlag, hr]

@[simp]
theorem ofBit_xor (a b : Bool) : ofBit a ^^^ ofBit b = ofBit (a ^^ b) := by
  cases a <;> cases b <;> rfl

@[simp]
theorem ofBit_or (a b : Bool) : ofBit a ||| ofBit b = ofBit (a || b) := by
  cases a <;> cases b <;> rfl

/-! ## The tests -/

theorem testN_bit (r : BitVec 32) : testN r = ofBit (r.getLsbD 7) := shr_and_one r 7

/-- The bit of a carry test before the complement. -/
def carryBit (i0 i1 r : BitVec 32) : Bool :=
  (i0.getLsbD 7 || i1.getLsbD 7) && !r.getLsbD 7 || i0.getLsbD 7 && i1.getLsbD 7

theorem testC_bit (i0 i1 r : BitVec 32) (sub : Bool) :
    testC i0 i1 r (ofBit sub) = ofBit (carryBit i0 i1 r ^^ sub) := by
  unfold testC carryBit
  simp only [shr_and_one, ofBit_xor]
  simp

theorem testV_bit (i0 i1 r : BitVec 32) :
    testV i0 i1 r = ofBit (!(i0.getLsbD 7 ^^ i1.getLsbD 7) && (i0.getLsbD 7 ^^ r.getLsbD 7)) := by
  unfold testV
  simp only [shr_and_one]
  simp

theorem low_zero_iff (n : Nat) (r : BitVec 32) : r.setWidth n = 0 ↔ ∀ i < n, r.getLsbD i = false := by
  have h := lowEq_iff_getLsbD (n := n) (a := r) (b := 0)
  simpa [LowEq] using h

/-- The upper half of the low bits folded onto the lower half. -/
theorem fold_ones {k : Nat} (x mask : BitVec 32) (hmask : mask.toNat = 2 ^ k - 1) :
    (∀ i < k, ((x >>> k) &&& (x &&& mask)).getLsbD i = true) ↔ ∀ i < k + k, x.getLsbD i = true := by
  have hbit : ∀ i < k, mask.getLsbD i = true := by
    intro i hi
    rw [BitVec.getLsbD, hmask, Nat.testBit_two_pow_sub_one]
    exact decide_eq_true hi
  constructor
  · intro h i hi
    by_cases hik : i < k
    · have hi' := h i hik
      simp only [BitVec.getLsbD_and, Bool.and_eq_true] at hi'
      exact hi'.2.1
    · have hi' := h (i - k) (by omega)
      simp only [BitVec.getLsbD_and, Bool.and_eq_true, BitVec.getLsbD_ushiftRight] at hi'
      rw [← hi'.1]
      congr 1
      omega
  · intro h i hi
    simp only [BitVec.getLsbD_and, BitVec.getLsbD_ushiftRight, hbit i hi, h i (by omega), h (k + i) (by omega)]
    rfl

/-- The last fold leaves one bit. -/
theorem fold_last (x y : BitVec 32) (b : Bool)
    (h : (∀ i < 1, (x &&& (y &&& 1)).getLsbD i = true) ↔ b = true) : x &&& (y &&& 1) = ofBit b := by
  rw [← BitVec.and_assoc, ← BitVec.ushiftRight_zero (x &&& y), shr_and_one]
  congr 1
  rw [Bool.eq_iff_iff, ← h]
  simp

theorem testZ8_bit (r : BitVec 32) : testZ8 r = ofBit (decide (r.setWidth 8 = 0)) := by
  unfold testZ8
  apply fold_last
  rw [decide_eq_true_iff, low_zero_iff, fold_ones (k := 1) _ 1 rfl, fold_ones (k := 2) _ 0x3 rfl,
    fold_ones (k := 4) _ 0xf rfl]
  refine forall₂_congr fun i hi => ?_
  simp [show i < 32 by omega]

theorem testZ16_bit (r : BitVec 32) : testZ16 r = ofBit (decide (r.setWidth 16 = 0)) := by
  unfold testZ16
  apply fold_last
  rw [decide_eq_true_iff, low_zero_iff, fold_ones (k := 1) _ 1 rfl, fold_ones (k := 2) _ 0x3 rfl,
    fold_ones (k := 4) _ 0xf rfl, fold_ones (k := 8) _ 0xff rfl]
  refine forall₂_congr fun i hi => ?_
  simp [show i < 32 by omega]

/-! ## Addition with a carry -/

section Adder

variable (i0 i1 : BitVec 32) (c : Bool)

theorem adder_bit {k : Nat} (hk : k < 32) :
    (i0 + i1 + ofBit c).getLsbD k = (i0.getLsbD k ^^ (i1.getLsbD k ^^ BitVec.carry k i0 i1 c)) :=
  BitVec.getLsbD_add_add_bool hk i0 i1 c

/-- Where two bits are added, the bit of the sum tells the carry into it and so the carry out. -/
theorem carry_out {k : Nat} (hk : k < 32) :
    ((i0.getLsbD k || i1.getLsbD k) && !(i0 + i1 + ofBit c).getLsbD k || i0.getLsbD k && i1.getLsbD k) =
      BitVec.carry (k + 1) i0 i1 c := by
  rw [adder_bit i0 i1 c hk, BitVec.carry_succ]
  cases i0.getLsbD k <;> cases i1.getLsbD k <;> cases BitVec.carry k i0 i1 c <;> rfl

theorem carryBit_half :
    carryBit (i0 <<< 4) (i1 <<< 4) ((i0 + i1 + ofBit c) <<< 4) = BitVec.carry 4 i0 i1 c := by
  rw [← carry_out i0 i1 c (k := 3) (by omega), carryBit, BitVec.getLsbD_shiftLeft,
    BitVec.getLsbD_shiftLeft, BitVec.getLsbD_shiftLeft]
  rfl

theorem carryBit_byte : carryBit i0 i1 (i0 + i1 + ofBit c) = BitVec.carry 8 i0 i1 c :=
  carry_out i0 i1 c (k := 7) (by omega)

theorem carryBit_word :
    carryBit (i0 >>> 8) (i1 >>> 8) ((i0 + i1 + ofBit c) >>> 8) = BitVec.carry 16 i0 i1 c := by
  rw [← carry_out i0 i1 c (k := 15) (by omega)]
  simp [carryBit]

theorem toInt_low (x : BitVec 32) (k : Nat) :
    (x.setWidth (k + 1)).toInt = (x.toNat % 2 ^ k : Nat) - ((2 ^ k * (x.getLsbD k).toNat : Nat) : Int) := by
  have hlt : x.toNat % 2 ^ k < 2 ^ k := Nat.mod_lt _ (Nat.two_pow_pos k)
  have hbit : x.toNat / 2 ^ k % 2 = (x.getLsbD k).toNat := by
    rw [BitVec.getLsbD, Nat.testBit_eq_decide_div_mod_eq]
    obtain h | h : x.toNat / 2 ^ k % 2 = 0 ∨ x.toNat / 2 ^ k % 2 = 1 := by omega
    · simp [h]
    · simp [h]
  rw [BitVec.toInt_eq_toNat_cond, BitVec.toNat_setWidth, Nat.mod_pow_succ, hbit, Nat.pow_succ]
  generalize x.toNat % 2 ^ k = low at hlt ⊢
  generalize 2 ^ k = n at hlt ⊢
  cases x.getLsbD k <;> simp <;> omega

/-- Negative xor overflow is the sign of the exact sum. -/
theorem sign_sum {k : Nat} (hk : k < 32) :
    ((i0 + i1 + ofBit c).getLsbD k ^^
        (!(i0.getLsbD k ^^ i1.getLsbD k) && (i0.getLsbD k ^^ (i0 + i1 + ofBit c).getLsbD k))) =
      decide ((i0.setWidth (k + 1)).toInt + (i1.setWidth (k + 1)).toInt + (c.toNat : Int) < 0) := by
  have h0 : i0.toNat % 2 ^ k < 2 ^ k := Nat.mod_lt _ (Nat.two_pow_pos k)
  have h1 : i1.toNat % 2 ^ k < 2 ^ k := Nat.mod_lt _ (Nat.two_pow_pos k)
  have hc : c.toNat ≤ 1 := Bool.toNat_le c
  rw [adder_bit i0 i1 c hk, toInt_low, toInt_low, BitVec.carry]
  generalize i0.toNat % 2 ^ k = low0 at h0 ⊢
  generalize i1.toNat % 2 ^ k = low1 at h1 ⊢
  generalize 2 ^ k = n at h0 h1 ⊢
  by_cases hcarry : low0 + low1 + c.toNat ≥ n
  · cases i0.getLsbD k <;> cases i1.getLsbD k <;> simp [hcarry] <;> omega
  · cases i0.getLsbD k <;> cases i1.getLsbD k <;> simp [hcarry] <;> omega

end Adder

/-! ## What the instructions leave in the flags -/

/-- N, Z, V and C after a sum of bytes. A subtraction turns the carry into a borrow. -/
def withByteSum (i0 i1 : BitVec 32) (c sub : Bool) (m : Machine H) : Machine H :=
  let r := i0 + i1 + ofBit c
  withFlag .C (BitVec.carry 8 i0 i1 c ^^ sub)
    (withFlag .V (!(i0.getLsbD 7 ^^ i1.getLsbD 7) && (i0.getLsbD 7 ^^ r.getLsbD 7))
      (withFlag .Z (r.setWidth 8 = 0) (withFlag .N (r.getLsbD 7) m)))

def withHalfCarry (i0 i1 : BitVec 32) (c : Bool) (m : Machine H) : Machine H :=
  withFlag .H (BitVec.carry 4 i0 i1 c) m

/-- N, Z, V and C after a difference of words. -/
def withWordSum (i0 i1 : BitVec 32) (c sub : Bool) (m : Machine H) : Machine H :=
  let r := i0 + i1 + ofBit c
  withFlag .C (BitVec.carry 16 i0 i1 c ^^ sub)
    (withFlag .V (!(i0.getLsbD 15 ^^ i1.getLsbD 15) && (i0.getLsbD 15 ^^ r.getLsbD 15))
      (withFlag .Z (r.setWidth 16 = 0) (withFlag .N (r.getLsbD 15) m)))

/-- N, Z and C after a shift to the right. -/
def withShift (r : BitVec 32) (out : Bool) (m : Machine H) : Machine H :=
  withFlag .C out (withFlag .Z (r.setWidth 8 = 0) (withFlag .N (r.getLsbD 7) m))

section Runs

variable {i0 i1 r : BitVec 32} {c : Bool}

theorem halfCarry_run (hr : r = i0 + i1 + ofBit c) (m : Machine H) :
    setCc .H (testC (i0 <<< 4) (i1 <<< 4) (r <<< 4) 0) m = .ok () (withHalfCarry i0 i1 c m) := by
  subst hr
  rw [show (0 : BitVec 32) = ofBit false from rfl, testC_bit, carryBit_half, Bool.xor_false]
  rfl

theorem byteSum_run (hr : r = i0 + i1 + ofBit c) (sub : Bool) (m : Machine H) :
    (do
      setCc .N (testN r)
      setCc .Z (testZ8 r)
      setCc .V (testV i0 i1 r)
      setCc .C (testC i0 i1 r (ofBit sub))
      return r : M H (BitVec 32)) m = .ok r (withByteSum i0 i1 c sub m) := by
  subst hr
  rw [testN_bit, testZ8_bit, testV_bit, testC_bit, carryBit_byte]
  rfl

theorem wordSum_run (hr : r = i0 + i1 + ofBit c) (sub : Bool) (m : Machine H) :
    (do
      setCc .N (testN (r >>> 8))
      setCc .Z (testZ16 r)
      setCc .V (testV (i0 >>> 8) (i1 >>> 8) (r >>> 8))
      setCc .C (testC (i0 >>> 8) (i1 >>> 8) (r >>> 8) (ofBit sub))
      return r : M H (BitVec 32)) m = .ok r (withWordSum i0 i1 c sub m) := by
  subst hr
  rw [testN_bit, testZ16_bit, testV_bit, testC_bit, carryBit_word]
  simp only [BitVec.getLsbD_ushiftRight]
  rfl

theorem shift_run (r : BitVec 32) (data : BitVec 32) (m : Machine H) :
    (do
      setCc .N (testN r)
      setCc .Z (testZ8 r)
      setCc .C (data &&& 1)
      return r : M H (BitVec 32)) m = .ok r (withShift r (data.getLsbD 0) m) := by
  rw [testN_bit, testZ8_bit, ← BitVec.ushiftRight_zero data, shr_and_one]
  rfl

end Runs

section Instructions

variable (data data0 data1 : BitVec 32) (m : Machine H)

theorem instAdd8_run : instAdd8 data0 data1 m = .ok (data0 + data1 + ofBit false)
    (withByteSum data0 data1 false false (withHalfCarry data0 data1 false m)) := by
  have hr : data0 + data1 = data0 + data1 + ofBit false := by simp [ofBit]
  simp only [instAdd8, bind, EStateM.bind, halfCarry_run hr]
  exact (byteSum_run hr false _).trans (by rw [← hr])

theorem instAdc_run : instAdc data0 data1 m = .ok (data0 + data1 + ofBit (flag .C m))
    (withByteSum data0 data1 (flag .C m) false (withHalfCarry data0 data1 (flag .C m) m)) := by
  simp only [instAdc, bind, EStateM.bind, getCc_run, halfCarry_run rfl]
  exact byteSum_run rfl false _

theorem instSub8_run : instSub8 data0 data1 m = .ok (data0 + ~~~data1 + ofBit true)
    (withByteSum data0 (~~~data1) true true (withHalfCarry data0 (~~~data1) true m)) := by
  simp only [instSub8, bind, EStateM.bind, show (1 : BitVec 32) = ofBit true from rfl, halfCarry_run rfl]
  exact byteSum_run rfl true _

theorem instSbc_run : instSbc data0 data1 m = .ok (data0 + ~~~data1 + ofBit (!flag .C m))
    (withByteSum data0 (~~~data1) (!flag .C m) true (withHalfCarry data0 (~~~data1) (!flag .C m) m)) := by
  have hnot : 1 - ofBit (flag .C m) = ofBit (!flag .C m) := by cases flag .C m <;> rfl
  simp only [instSbc, bind, EStateM.bind, getCc_run, hnot, halfCarry_run rfl]
  exact byteSum_run rfl true _

theorem instAsl_run : instAsl data m = .ok (data + data + ofBit false)
    (withByteSum data data false false (withHalfCarry data data false m)) :=
  instAdd8_run data data m

theorem instRol_run : instRol data m = .ok (data + data + ofBit (flag .C m))
    (withByteSum data data (flag .C m) false m) := by
  simp only [instRol, bind, EStateM.bind, getCc_run]
  exact byteSum_run rfl false _

/-- The byte that `lsr` and `ror` leave, given the bit that comes in at the top. -/
def shiftedRight (c : Bool) : BitVec 32 := ((data >>> 1) &&& (0x7f : BitVec 32)) ||| (ofBit c <<< 7)

theorem instLsr_run : instLsr data m = .ok (shiftedRight data false)
    (withShift (shiftedRight data false) (data.getLsbD 0) m) := by
  have hr : (data >>> 1) &&& 0x7f = shiftedRight data false := by simp [shiftedRight, ofBit]
  have hn : (0 : BitVec 32) = testN (shiftedRight data false) := by
    rw [← hr, testN_bit, BitVec.getLsbD_and, show (0x7f : BitVec 32).getLsbD 7 = false from rfl, Bool.and_false]
    rfl
  unfold instLsr
  rw [hr, hn]
  exact shift_run (shiftedRight data false) data m

theorem instRor_run : instRor data m = .ok (shiftedRight data (flag .C m))
    (withShift (shiftedRight data (flag .C m)) (data.getLsbD 0) m) := by
  simp only [instRor, bind, EStateM.bind, getCc_run]
  exact shift_run (shiftedRight data (flag .C m)) data m

theorem instSub16_run : instSub16 data0 data1 m = .ok (data0 + ~~~data1 + ofBit true)
    (withWordSum data0 (~~~data1) true true m) := by
  have hr : data0 + ~~~data1 + 1 = data0 + ~~~data1 + ofBit true := rfl
  unfold instSub16
  exact wordSum_run hr true m

end Instructions

/-! ## The flags afterwards -/

section Afterwards

variable (i0 i1 r : BitVec 32) (c sub out : Bool) (m : Machine H)

@[simp]
theorem flag_C_byteSum : flag .C (withByteSum i0 i1 c sub m) = (BitVec.carry 8 i0 i1 c ^^ sub) := by
  simp [withByteSum]

@[simp]
theorem flag_H_byteSum : flag .H (withByteSum i0 i1 c sub m) = flag .H m := by
  simp [withByteSum]

@[simp]
theorem flag_H_halfCarry : flag .H (withHalfCarry i0 i1 c m) = BitVec.carry 4 i0 i1 c := by
  simp [withHalfCarry]

@[simp]
theorem flag_C_wordSum : flag .C (withWordSum i0 i1 c sub m) = (BitVec.carry 16 i0 i1 c ^^ sub) := by
  simp [withWordSum]

@[simp]
theorem flag_Z_wordSum :
    flag .Z (withWordSum i0 i1 c sub m) = decide ((i0 + i1 + ofBit c).setWidth 16 = 0) := by
  simp [withWordSum]

@[simp]
theorem flag_C_shift : flag .C (withShift r out m) = out := by
  simp [withShift]

theorem sign_byteSum : (flag .N (withByteSum i0 i1 c sub m) ^^ flag .V (withByteSum i0 i1 c sub m)) =
    decide ((i0.setWidth 8).toInt + (i1.setWidth 8).toInt + (c.toNat : Int) < 0) := by
  simp only [withByteSum, flag_withFlag, reduceCtorEq, if_true, if_false]
  exact sign_sum i0 i1 c (by omega)

theorem sign_wordSum : (flag .N (withWordSum i0 i1 c sub m) ^^ flag .V (withWordSum i0 i1 c sub m)) =
    decide ((i0.setWidth 16).toInt + (i1.setWidth 16).toInt + (c.toNat : Int) < 0) := by
  simp only [withWordSum, flag_withFlag, reduceCtorEq, if_true, if_false]
  exact sign_sum i0 i1 c (by omega)

/-- The sum with its carry, in numbers. -/
theorem sum_toNat (n : Nat) (hn : n < 32) :
    (i0.setWidth n).toNat + (i1.setWidth n).toNat + c.toNat =
      ((i0 + i1 + ofBit c).setWidth n).toNat + 2 ^ n * (BitVec.carry n i0 i1 c).toNat := by
  have hc : (ofBit c).toNat = c.toNat := by cases c <;> rfl
  have hc1 : c.toNat ≤ 1 := Bool.toNat_le c
  have hpos : 0 < 2 ^ n := Nat.two_pow_pos n
  have h0 : i0.toNat % 2 ^ n < 2 ^ n := Nat.mod_lt _ hpos
  have h1 : i1.toNat % 2 ^ n < 2 ^ n := Nat.mod_lt _ hpos
  have hdvd : 2 ^ n ∣ 2 ^ 32 := Nat.pow_dvd_pow 2 (by omega)
  have hmod : ((i0.toNat + i1.toNat) % 2 ^ 32 + c.toNat) % 2 ^ 32 % 2 ^ n =
      (i0.toNat % 2 ^ n + i1.toNat % 2 ^ n + c.toNat) % 2 ^ n := by
    rw [Nat.mod_mod_of_dvd _ hdvd, Nat.add_mod, Nat.mod_mod_of_dvd _ hdvd, Nat.add_mod i0.toNat,
      ← Nat.add_mod]
  simp only [BitVec.toNat_setWidth, BitVec.toNat_add, hc, BitVec.carry, hmod]
  generalize i0.toNat % 2 ^ n = low0 at h0 ⊢
  generalize i1.toNat % 2 ^ n = low1 at h1 ⊢
  generalize 2 ^ n = p at h0 h1 ⊢
  by_cases hcarry : low0 + low1 + c.toNat ≥ p
  · rw [Nat.mod_eq_sub_mod hcarry, Nat.mod_eq_of_lt (by omega), decide_eq_true hcarry, Bool.toNat_true]
    omega
  · rw [Nat.mod_eq_of_lt (by omega), decide_eq_false hcarry, Bool.toNat_false]
    omega

end Afterwards

end Fuzemsys.Emulators.Cpu6809
