import Fuzemsys.Emulators.Cpu6809.LongArith

/-!
# Packed decimal addition

`ADDA` or `ADCA` and then `DAA` on each byte, two decimal digits at a time. `DAA`
adjusts the byte, but it takes its carry from the adjustment alone: a carry that
the addition itself left is lost.
-/

namespace Fuzemsys.Emulators.Cpu6809

open Fuzemsys.Emulators Fuzemsys.Lib

variable {H : Type} {world : World H} {m t m' : Machine H}

/-! ## Two digits in a byte -/

def decimalByte (b : BitVec 8) : Nat := 10 * (b.toNat / 16) + b.toNat % 16

/-- Every nibble is a decimal digit. -/
def PackedByte (b : BitVec 8) : Prop := b.toNat / 16 ≤ 9 ∧ b.toNat % 16 ≤ 9

instance (b : BitVec 8) : Decidable (PackedByte b) := inferInstanceAs (Decidable (_ ∧ _))

def Packed (l : List (BitVec 8)) : Prop := ∀ b ∈ l, PackedByte b

def decimal (l : List (BitVec 8)) : Nat := bigEndian 100 (l.map decimalByte)

theorem decimal_lt {l : List (BitVec 8)} (h : Packed l) : decimal l < 100 ^ l.length := by
  have hlt := bigEndian_lt (B := 100) (l := l.map decimalByte) (by omega) ?_
  · simpa [decimal] using hlt
  · intro x hx
    obtain ⟨b, hb, rfl⟩ := List.mem_map.mp hx
    obtain ⟨hhigh, hlow⟩ := h b hb
    unfold decimalByte
    omega

/-! ## The adjustment -/

/-- What `DAA` adds to the accumulator. -/
def adjustment (i0 : BitVec 32) (h c : Bool) : BitVec 32 :=
  let i1 : BitVec 32 := if (i0 &&& 0x0f) > 0x09 ∨ ofBit h = 1 then 0x06 else 0
  let i1 := if (i0 &&& 0xf0) > 0x80 ∧ (i0 &&& 0x0f) > 0x09 then i1 ||| 0x60 else i1
  if (i0 &&& 0xf0) > 0x90 ∨ ofBit c = 1 then i1 ||| 0x60 else i1

theorem adjustment_low (i0 : BitVec 32) (h c : Bool) :
    adjustment i0 h c = adjustment ((i0.setWidth 8).setWidth 32) h c := by
  have hlow : LowEq 8 i0 ((i0.setWidth 8).setWidth 32) := by
    unfold LowEq
    simp
  unfold adjustment
  rw [hlow.mask 0x0f (by decide), hlow.mask 0xf0 (by decide)]

theorem adjustment_byte : ∀ (b : BitVec 8) (h c : Bool), (adjustment (b.setWidth 32) h c).toNat =
    (if b.toNat % 16 > 9 ∨ h = true then 6 else 0) +
      if b.toNat / 16 > 8 ∧ b.toNat % 16 > 9 ∨ b.toNat / 16 > 9 ∨ c = true then 96 else 0 := by
  decide +kernel

theorem instDaa_run (m : Machine H) : ∃ u, instDaa m = .ok () u ∧
    u.reg8 .a = m.reg8 .a + adjustment (m.reg8 .a) (flag .H m) (flag .C m) + ofBit false ∧
    flag .C u = BitVec.carry 8 (m.reg8 .a) (adjustment (m.reg8 .a) (flag .H m) (flag .C m)) false := by
  have hcarry : ∀ i0 i1 r : BitVec 32, testC i0 i1 r 0 = ofBit (carryBit i0 i1 r) := by
    intro i0 i1 r
    rw [show (0 : BitVec 32) = ofBit false from rfl, testC_bit, Bool.xor_false]
  have hclear : ∀ v : Machine H, setCc .V 0 v = .ok () (withFlag .V false v) := fun v => setCc_run .V false v
  have hsum : m.reg8 .a + adjustment (m.reg8 .a) (flag .H m) (flag .C m) =
      m.reg8 .a + adjustment (m.reg8 .a) (flag .H m) (flag .C m) + ofBit false := by simp [ofBit]
  rw [← carryBit_byte, ← hsum]
  simp only [instDaa, bind, EStateM.bind, get8, getCc_run, set8, Function.update_self, testN_bit, testZ8_bit,
    setCc_run, hclear, hcarry]
  refine ⟨_, rfl, ?_, ?_⟩
  · simp [adjustment]
  · simp [adjustment]

/-! ## One byte -/

/-- `m'` has the flags and the byte of a sum with the carry `c`. -/
def Summed (c : Bool) (d : Digit) (m' : Machine H) : Prop :=
  ∃ (i0 : BitVec 32) (u : Machine H), d.x = i0.setWidth 8 ∧ d.z = (i0 + d.y.setWidth 32 + ofBit c).setWidth 8 ∧
    ∀ g, flag g m' = flag g (withByteSum i0 (d.y.setWidth 32) c false (withHalfCarry i0 (d.y.setWidth 32) c u))

theorem Applies.summed_add8 {r : Reg8} {d : Digit} (h : Applies world .add8 r d m m') : Summed false d m' := by
  obtain ⟨u, res, v, hu, hinst, hx, hz, hflags⟩ := h.result
  rw [instBinary8, instAdd8_run] at hinst
  cases hinst
  exact ⟨_, u, hx, hz, hflags⟩

theorem Applies.summed_adc {r : Reg8} {d : Digit} (h : Applies world .adc r d m m') :
    Summed (flag .C m) d m' := by
  obtain ⟨u, res, v, hu, hinst, hx, hz, hflags⟩ := h.result
  have hc : flag .C u = flag .C m := by rw [flag, hu, flag]
  rw [instBinary8, instAdc_run, hc] at hinst
  cases hinst
  exact ⟨_, u, hx, hz, hflags⟩

theorem Summed.carry {c : Bool} {d : Digit} (h : Summed c d m') :
    d.x.toNat + d.y.toNat + c.toNat = d.z.toNat + 256 * carry m' := by
  obtain ⟨i0, u, hx, hz, hflags⟩ := h
  have hsum := sum_toNat i0 (d.y.setWidth 32) c 8 (by omega)
  rw [Cpu6809.carry, hflags, flag_C_byteSum, Bool.xor_false, hx, hz]
  simpa using hsum

theorem Summed.half {c : Bool} {d : Digit} (h : Summed c d m') :
    flag .H m' = true ↔ 16 ≤ d.x.toNat % 16 + d.y.toNat % 16 + c.toNat := by
  obtain ⟨i0, u, hx, -, hflags⟩ := h
  have hlow : d.x.toNat % 16 = i0.toNat % 16 := by
    rw [hx, BitVec.toNat_setWidth]
    omega
  have hy : (d.y.setWidth 32).toNat = d.y.toNat := by
    rw [BitVec.toNat_setWidth]
    omega
  rw [hflags, flag_H_byteSum, flag_H_halfCarry, BitVec.carry, decide_eq_true_iff, hy, hlow]

/-- `f` on the accumulator, then `DAA` with the registers as `f` left them. -/
def AddsDecimal (world : World H) (f : Binary8) (d : Digit) (m m' : Machine H) : Prop :=
  ∃ w t u op v, Applies world f .a ⟨d.x, d.y, w⟩ m t ∧ u.reg8 = t.reg8 ∧ Decodes u .daa op v ∧
    dispatch world u = .ok () m' ∧ byteOf .a m' = d.z

/-- An executed `DAA` on the byte `w`. -/
theorem daa_result {u v : Machine H} {op : BitVec 8} (hdec : Decodes u .daa op v)
    (hrun : dispatch world u = .ok () m') :
    (byteOf .a u).toNat + (adjustment ((byteOf .a u).setWidth 32) (flag .H u) (flag .C u)).toNat % 256 =
      (byteOf .a m').toNat + 256 * carry m' := by
  obtain ⟨u', hdaa, hreg, hcarry⟩ := instDaa_run v
  have hexec := hdec.dispatch world
  simp only [EStateM.run, hrun, exec, bind, EStateM.bind, hdaa] at hexec
  cases hexec
  have hflag : ∀ g, flag g v = flag g u := fun g => by rw [flag, hdec.reg8, flag]
  rw [hflag, hflag, adjustment_low, hdec.reg8] at hreg hcarry
  have hsum := sum_toNat (u.reg8 .a) (adjustment ((byteOf .a u).setWidth 32) (flag .H u) (flag .C u)) false 8
    (by omega)
  change (byteOf .a u).toNat + _ = ((u'.reg8 .a).setWidth 8).toNat + 256 * (flag .C u').toNat
  rw [hreg, hcarry]
  simpa [byteOf] using hsum

/-- The two digits are right. The carry is right unless the sum of the bytes had a carry itself. -/
structure DecimalByte (d : Digit) (c : Nat) (m' : Machine H) : Prop where
  packed : PackedByte d.z
  digits : ∃ k ≤ 1, decimalByte d.x + decimalByte d.y + c = decimalByte d.z + 100 * k ∧
    (d.x.toNat + d.y.toNat + c < 256 → carry m' = k) ∧
    (256 ≤ d.x.toNat + d.y.toNat + c → carry m' = 0 ∧ k = 1)

theorem decimalByte_of_daa {c : Bool} {d : Digit} {w : BitVec 8} {u v : Machine H} {op : BitVec 8}
    (hs : Summed c ⟨d.x, d.y, w⟩ t) (hw : byteOf .a t = w) (hu : u.reg8 = t.reg8) (hdec : Decodes u .daa op v)
    (hrun : dispatch world u = .ok () m') (hz : byteOf .a m' = d.z) (hx : PackedByte d.x) (hy : PackedByte d.y) :
    DecimalByte d c.toNat m' := by
  have hflag : ∀ g, flag g u = flag g t := fun g => by rw [flag, hu, flag]
  have hbyte : byteOf .a u = w := by rw [byteOf, hu, ← hw, byteOf]
  have hcarry := hs.carry
  have hhalf := hs.half
  have hdaa := daa_result hdec hrun
  rw [hbyte, hz, hflag, hflag, adjustment_byte] at hdaa
  have hC : flag .C t = true ↔ carry t = 1 := (carry_eq_one t).symm
  have hle := carry_le t
  have hc := Bool.toNat_le c
  simp only [hhalf, hC] at hdaa
  simp only at hcarry
  obtain ⟨hx1, hx0⟩ := hx
  obtain ⟨hy1, hy0⟩ := hy
  have hwlt := w.isLt
  have hzlt := d.z.isLt
  have hle' := carry_le m'
  refine ⟨?_, ?_⟩
  · unfold PackedByte
    split at hdaa <;> split at hdaa <;> omega
  · refine ⟨if 100 ≤ decimalByte d.x + decimalByte d.y + c.toNat then 1 else 0, by split <;> omega, ?_⟩
    unfold decimalByte
    refine ⟨?_, ?_, ?_⟩
    · split <;> split at hdaa <;> split at hdaa <;> omega
    · intro hsmall
      split <;> split at hdaa <;> split at hdaa <;> omega
    · intro hbig
      split <;> split at hdaa <;> split at hdaa <;> omega

/-! ## The chain -/

def DecimalChain (world : World H) : List Digit → Machine H → Prop :=
  Chain (AddsDecimal world .add8) (AddsDecimal world .adc) SameCarry

structure IsDecimalSum (x y z : List (BitVec 8)) (m : Machine H) : Prop where
  packed : Packed z
  result : decimal z = (decimal x + decimal y) % 100 ^ z.length
  carry : flag .C m = true ↔ 100 ^ z.length ≤ decimal x + decimal y

/-- No two bytes, with the decimal carry from below, add up to more than a byte. -/
def CarryFree : List (BitVec 8) → List (BitVec 8) → Prop
  | x :: xs, y :: ys =>
    x.toNat + y.toNat + (if 100 ^ xs.length ≤ decimal xs + decimal ys then 1 else 0) < 256 ∧ CarryFree xs ys
  | _, _ => True

section Chain

variable {l : List Digit} {d : Digit}

@[simp]
theorem decimal_cons (b : BitVec 8) (l : List (BitVec 8)) :
    decimal (b :: l) = decimal l + 100 ^ l.length * decimalByte b := by
  simp [decimal]

theorem AddsDecimal.first (h : AddsDecimal world .add8 d m m') (hx : PackedByte d.x) (hy : PackedByte d.y) :
    DecimalByte d 0 m' := by
  obtain ⟨w, t, u, op, v, hadd, hu, hdec, hrun, hz⟩ := h
  have hw : byteOf .a t = w := by
    obtain ⟨-, -, -, -, -, -, -, -, -, hw⟩ := hadd
    exact hw
  exact decimalByte_of_daa hadd.summed_add8 hw hu hdec hrun hz hx hy

theorem AddsDecimal.next (h : AddsDecimal world .adc d m m') (hx : PackedByte d.x) (hy : PackedByte d.y) :
    DecimalByte d (carry m) m' := by
  obtain ⟨w, t, u, op, v, hadd, hu, hdec, hrun, hz⟩ := h
  have hw : byteOf .a t = w := by
    obtain ⟨-, -, -, -, -, -, -, -, -, hw⟩ := hadd
    exact hw
  exact decimalByte_of_daa hadd.summed_adc hw hu hdec hrun hz hx hy

/-- The sum is right, carry included. -/
def Exact (l : List Digit) (m : Machine H) : Prop :=
  decimal (l.map Digit.x) + decimal (l.map Digit.y) =
    decimal (l.map Digit.z) + 100 ^ l.length * carry m

/-- One more byte keeps the sum right exactly when it was right and the byte has no carry of its own. -/
theorem exact_cons {s : Machine H} (hx : Packed (l.map Digit.x)) (hy : Packed (l.map Digit.y))
    (hz : Packed (l.map Digit.z)) (hbyte : DecimalByte d (carry s) m') :
    Exact (d :: l) m' ↔ Exact l s ∧
      d.x.toNat + d.y.toNat + (if 100 ^ l.length ≤ decimal (l.map Digit.x) + decimal (l.map Digit.y) then 1 else 0)
        < 256 := by
  have hxlt := decimal_lt hx
  have hylt := decimal_lt hy
  have hzlt := decimal_lt hz
  have hcs := carry_le s
  have hcm := carry_le m'
  obtain ⟨k, hk, hdigits, hsmall, hbig⟩ := hbyte.digits
  unfold Exact
  simp only [List.map_cons, decimal_cons, List.length_map, List.length_cons, Nat.pow_succ] at hxlt hylt hzlt ⊢
  have hscaled : 100 ^ l.length * (decimalByte d.x + decimalByte d.y + carry s) =
      100 ^ l.length * (decimalByte d.z + 100 * k) := congrArg (100 ^ l.length * ·) hdigits
  rw [Nat.mul_add, Nat.mul_add, Nat.mul_add] at hscaled
  generalize decimal (l.map Digit.x) = X at hxlt ⊢
  generalize decimal (l.map Digit.y) = Y at hylt ⊢
  generalize decimal (l.map Digit.z) = Z at hzlt ⊢
  generalize 100 ^ l.length * decimalByte d.x = DX at hscaled ⊢
  generalize 100 ^ l.length * decimalByte d.y = DY at hscaled ⊢
  generalize 100 ^ l.length * decimalByte d.z = DZ at hscaled ⊢
  generalize 100 ^ l.length = P at hxlt hylt hzlt hscaled ⊢
  obtain hc | hc : carry s = 0 ∨ carry s = 1 := by omega
  all_goals
    obtain rfl | rfl : k = 0 ∨ k = 1 := by omega
    all_goals
      obtain hm | hm : carry m' = 0 ∨ carry m' = 1 := by omega
      all_goals
        rw [hc] at hscaled hdigits hsmall hbig ⊢
        rw [hm] at hsmall hbig ⊢
        split <;> omega

theorem DecimalChain.exact_iff (h : DecimalChain world l m) (hx : Packed (l.map Digit.x))
    (hy : Packed (l.map Digit.y)) :
    Packed (l.map Digit.z) ∧ (Exact l m ↔ CarryFree (l.map Digit.x) (l.map Digit.y)) := by
  induction h with
  | @one d s t hfirst =>
    have hbyte := hfirst.first (hx _ (by simp)) (hy _ (by simp))
    obtain ⟨k, hk, hdigits, hsmall, hbig⟩ := hbyte.digits
    refine ⟨by simpa [Packed] using hbyte.packed, ?_⟩
    simp only [Exact, CarryFree, List.map_cons, List.map_nil, decimal_cons, List.length_nil, List.length_cons,
      and_true]
    simp only [decimal, List.map_nil, bigEndian_nil]
    rw [if_neg (show ¬100 ^ 0 ≤ 0 + 0 by decide)]
    omega
  | @more l d s t u hl hsame hnext ih =>
    obtain ⟨hz, hiff⟩ := ih (fun b hb => hx b (by simp [hb])) (fun b hb => hy b (by simp [hb]))
    have hbyte := hnext.next (hx _ (by simp)) (hy _ (by simp))
    rw [carry_same hsame] at hbyte
    refine ⟨?_, ?_⟩
    · intro b hb
      obtain rfl | hb := List.mem_cons.mp hb
      · exact hbyte.packed
      · exact hz b hb
    · rw [exact_cons (fun b hb => hx b (by simp [hb])) (fun b hb => hy b (by simp [hb])) hz hbyte, hiff]
      simp only [List.map_cons, CarryFree, List.length_map]
      exact And.comm

/-- The chain adds packed decimal numbers exactly when no byte sum has a carry of its own. -/
theorem decimal_addition (world : World H) (l : List Digit) (m : Machine H) (h : DecimalChain world l m)
    (hx : Packed (l.map Digit.x)) (hy : Packed (l.map Digit.y)) :
    IsDecimalSum (l.map Digit.x) (l.map Digit.y) (l.map Digit.z) m ↔
      CarryFree (l.map Digit.x) (l.map Digit.y) := by
  obtain ⟨hz, hiff⟩ := h.exact_iff hx hy
  rw [← hiff]
  have hzlt := decimal_lt hz
  have hxlt := decimal_lt hx
  have hylt := decimal_lt hy
  simp only [List.length_map] at hzlt hxlt hylt
  constructor
  · rintro ⟨-, hres, hcarry⟩
    rw [List.length_map] at hres hcarry
    rw [← carry_eq_one] at hcarry
    unfold Exact
    rw [hres]
    exact eq_mod_add_carry (by omega) (carry_le m) hcarry
  · intro hexact
    refine ⟨hz, ?_, ?_⟩
    · rw [List.length_map]
      exact eq_mod_of_carry hexact hzlt
    · rw [List.length_map, ← carry_eq_one]
      exact carry_eq_one_iff hexact hzlt (carry_le m)

/-- `ADDA #data` and `DAA`, about to run. -/
def decimalMachine (a data : BitVec 8) : Machine Unit :=
  { clearMachine (fun p => if p = 0 then 0x8b else if p = 1 then data else 0x19) with
    reg8 := fun r => if r = .a then a.setWidth 32 else 0 }

def decimalMachine1 (a data : BitVec 8) : Machine Unit := endState (dispatch quietWorld (decimalMachine a data))

def decimalMachine2 (a data : BitVec 8) : Machine Unit := endState (dispatch quietWorld (decimalMachine1 a data))

theorem decimal_addition_small : IsDecimalSum [0x35] [0x28] [0x63] (decimalMachine2 0x35 0x28) := by
  have hadd : Applies quietWorld .add8 .a ⟨0x35, 0x28, 0x5d⟩ (decimalMachine 0x35 0x28) (decimalMachine1 0x35 0x28) :=
    ⟨.immediate, 2, 0x8b, _, _, .plain (by decide), rfl, rfl, by decide, by decide⟩
  have hchain : DecimalChain quietWorld [⟨0x35, 0x28, 0x63⟩] (decimalMachine2 0x35 0x28) :=
    .one ⟨0x5d, _, decimalMachine1 0x35 0x28, 0x19, _, hadd, rfl, .plain (by decide), rfl, by decide⟩
  have hpacked : ∀ b : BitVec 8, PackedByte b → Packed [b] := by simp [Packed]
  exact (decimal_addition quietWorld _ _ hchain (hpacked 0x35 (by decide)) (hpacked 0x28 (by decide))).mpr
    ⟨by decide, trivial⟩

/-- 99 and 99 make 198, and the carry is lost. -/
theorem decimal_carry_lost : ¬ ∀ (l : List Digit) (m : Machine Unit), DecimalChain quietWorld l m →
    Packed (l.map Digit.x) → Packed (l.map Digit.y) →
      IsDecimalSum (l.map Digit.x) (l.map Digit.y) (l.map Digit.z) m := by
  intro h
  have hadd : Applies quietWorld .add8 .a ⟨0x99, 0x99, 0x32⟩ (decimalMachine 0x99 0x99) (decimalMachine1 0x99 0x99) :=
    ⟨.immediate, 2, 0x8b, _, _, .plain (by decide), rfl, rfl, by decide, by decide⟩
  have hchain : DecimalChain quietWorld [⟨0x99, 0x99, 0x98⟩] (decimalMachine2 0x99 0x99) :=
    .one ⟨0x32, _, decimalMachine1 0x99 0x99, 0x19, _, hadd, rfl, .plain (by decide), rfl, by decide⟩
  have hpacked : Packed [(0x99 : BitVec 8)] := by
    have hbyte : PackedByte 0x99 := by decide
    simpa [Packed] using hbyte
  have hsum := h _ _ hchain hpacked hpacked
  exact absurd (hsum.carry.mpr (by decide)) (by decide)

end Chain

end Fuzemsys.Emulators.Cpu6809
