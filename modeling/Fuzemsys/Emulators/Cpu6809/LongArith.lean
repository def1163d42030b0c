import Fuzemsys.Emulators.Cpu6809.Chains

/-!
# Sums, differences and shifts of long numbers

What a whole chain of byte instructions computes, and how the branches after a
subtraction or a compare go.
-/

namespace Fuzemsys.Emulators.Cpu6809

open Fuzemsys.Emulators Fuzemsys.Lib

variable {H : Type} {world : World H} {m t m' : Machine H}

/-! ## Numbers in memory order -/

def number (l : List (BitVec 8)) : Nat := bigEndian 256 (l.map BitVec.toNat)

def signedNumber : List (BitVec 8) → Int
  | [] => 0
  | x :: l => x.toInt * (256 ^ l.length : Nat) + number l

theorem number_lt (l : List (BitVec 8)) : number l < 256 ^ l.length := by
  have h := bigEndian_lt (B := 256) (l := l.map BitVec.toNat) (by omega) ?_
  · simpa [number] using h
  · intro x hx
    obtain ⟨b, -, rfl⟩ := List.mem_map.mp hx
    exact b.isLt

/-! ## The chains -/

def SameCarry (m t : Machine H) : Prop := flag .C t = flag .C m

def AddChain (world : World H) : List Digit → Machine H → Prop :=
  Chain (fun d m t => ∃ r, Applies world .add8 r d m t) (fun d m t => ∃ r, Applies world .adc r d m t) SameCarry

def SubChain (world : World H) : List Digit → Machine H → Prop :=
  Chain (fun d m t => ∃ r, Applies world .sub8 r d m t) (fun d m t => ∃ r, Applies world .sbc r d m t) SameCarry

def AslChain (world : World H) : List (BitVec 8 × BitVec 8) → Machine H → Prop :=
  Chain (Shifts world .asl) (Shifts world .rol) SameCarry

/-- The head of the list is the byte shifted last, the least significant one. -/
def LsrChain (world : World H) : List (BitVec 8 × BitVec 8) → Machine H → Prop :=
  Chain (Shifts world .lsr) (Shifts world .ror) SameCarry

theorem carry_same (h : SameCarry m t) : carry t = carry m := by
  rw [carry, h, carry]

/-! ## What they leave -/

structure IsSum (x y z : List (BitVec 8)) (m : Machine H) : Prop where
  result : number z = (number x + number y) % 256 ^ z.length
  carry : flag .C m = true ↔ 256 ^ z.length ≤ number x + number y
  sign : negative m = true ↔ signedNumber x + signedNumber y < 0

structure IsDifference (x y z : List (BitVec 8)) (m : Machine H) : Prop where
  result : (number z : Int) = (number x - number y : Int) % (256 ^ z.length : Nat)
  borrow : flag .C m = true ↔ number x < number y
  sign : negative m = true ↔ signedNumber x < signedNumber y

structure IsDouble (x z : List (BitVec 8)) (m : Machine H) : Prop where
  result : number z = 2 * number x % 256 ^ z.length
  carry : flag .C m = true ↔ 256 ^ z.length ≤ 2 * number x

structure IsHalf (x z : List (BitVec 8)) (m : Machine H) : Prop where
  result : number z = number x / 2
  carry : flag .C m = true ↔ number x % 2 = 1

section Sums

variable {l : List Digit}

theorem AddChain.adds (h : AddChain world l m) :
    number (l.map Digit.x) + number (l.map Digit.y) =
      number (l.map Digit.z) + 256 ^ (l.map Digit.z).length * carry m := by
  have hadds := Chain.adds (B := 256) (x := fun d : Digit => d.x.toNat) (y := fun d => d.y.toNat)
    (z := fun d => d.z.toNat) (c := carry) ?_ (fun s t => carry_same) ?_ h
  · simpa [number, Function.comp_def] using hadds
  · rintro d s t ⟨r, ha⟩
    exact ha.add8.1
  · rintro d s t ⟨r, ha⟩
    exact ha.adc.1

theorem SubChain.subtracts (h : SubChain world l m) :
    number (l.map Digit.y) + number (l.map Digit.z) =
      number (l.map Digit.x) + 256 ^ (l.map Digit.z).length * carry m := by
  have hadds := Chain.adds (B := 256) (x := fun d : Digit => d.y.toNat) (y := fun d => d.z.toNat)
    (z := fun d => d.x.toNat) (c := carry) ?_ (fun s t => carry_same) ?_ h
  · simpa [number, Function.comp_def] using hadds
  · rintro d s t ⟨r, ha⟩
    exact ha.sub8.1
  · rintro d s t ⟨r, ha⟩
    exact ha.sbc.1

theorem AddChain.sign (h : AddChain world l m) :
    negative m = true ↔ signedNumber (l.map Digit.x) + signedNumber (l.map Digit.y) < 0 := by
  cases h with
  | one hfirst =>
    obtain ⟨r, ha⟩ := hfirst
    simp [ha.add8.2, signedNumber, number]
  | @more l d s u v hl hst hnext =>
    obtain ⟨r, ha⟩ := hnext
    have hlow := AddChain.adds hl
    have hneg := neg_iff_upper_neg (u := d.x.toInt + d.y.toInt + (carry s : Int)) (number_lt (l.map Digit.z))
    rw [ha.adc.2, carry_same hst, decide_eq_true_iff, ← hneg]
    simp only [List.map_cons, signedNumber, List.length_map] at hlow ⊢
    have hcast : (number (l.map Digit.x) + number (l.map Digit.y) : Int) =
        number (l.map Digit.z) + (256 ^ l.length : Nat) * carry s := by exact_mod_cast hlow
    constructor <;> intro hlt <;> linarith

theorem SubChain.sign (h : SubChain world l m) :
    negative m = true ↔ signedNumber (l.map Digit.x) < signedNumber (l.map Digit.y) := by
  rw [← sub_neg]
  cases h with
  | one hfirst =>
    obtain ⟨r, ha⟩ := hfirst
    simp [ha.sub8.2, signedNumber, number]
  | @more l d s u v hl hst hnext =>
    obtain ⟨r, ha⟩ := hnext
    have hlow := SubChain.subtracts hl
    have hneg := neg_iff_upper_neg (u := d.x.toInt - d.y.toInt - (carry s : Int)) (number_lt (l.map Digit.z))
    rw [ha.sbc.2, carry_same hst, decide_eq_true_iff, ← hneg]
    simp only [List.map_cons, signedNumber, List.length_map] at hlow ⊢
    have hcast : (number (l.map Digit.y) + number (l.map Digit.z) : Int) =
        number (l.map Digit.x) + (256 ^ l.length : Nat) * carry s := by exact_mod_cast hlow
    constructor <;> intro hlt <;> linarith

theorem AddChain.isSum (h : AddChain world l m) :
    IsSum (l.map Digit.x) (l.map Digit.y) (l.map Digit.z) m := by
  have hadds := h.adds
  have hlt := number_lt (l.map Digit.z)
  refine ⟨eq_mod_of_carry hadds hlt, ?_, h.sign⟩
  rw [← carry_eq_one]
  exact carry_eq_one_iff hadds hlt (carry_le m)

theorem SubChain.isDifference (h : SubChain world l m) :
    IsDifference (l.map Digit.x) (l.map Digit.y) (l.map Digit.z) m := by
  have hsubs := h.subtracts
  have hlt := number_lt (l.map Digit.z)
  refine ⟨?_, ?_, h.sign⟩
  · have hcast : (number (l.map Digit.y) + number (l.map Digit.z) : Int) =
        number (l.map Digit.x) + (256 ^ (l.map Digit.z).length : Nat) * carry m := by exact_mod_cast hsubs
    rw [show (number (l.map Digit.x) - number (l.map Digit.y) : Int) =
        number (l.map Digit.z) + (256 ^ (l.map Digit.z).length : Nat) * -(carry m : Int) by linarith,
      Int.add_mul_emod_self_left]
    exact (Int.emod_eq_of_lt (Int.natCast_nonneg _) (by exact_mod_cast hlt)).symm
  · rw [← carry_eq_one]
    exact borrow_eq_one_iff hsubs hlt (carry_le m)

end Sums

section Shifts

variable {l : List (BitVec 8 × BitVec 8)}

theorem AslChain.isDouble (h : AslChain world l m) : IsDouble (l.map Prod.fst) (l.map Prod.snd) m := by
  have hadds := Chain.adds (B := 256) (x := fun d : BitVec 8 × BitVec 8 => d.1.toNat) (y := fun d => d.1.toNat)
    (z := fun d => d.2.toNat) (c := carry) (fun _ _ _ => Shifts.asl) (fun s t => carry_same)
    (fun _ _ _ => Shifts.rol) h
  have hdouble : 2 * number (l.map Prod.fst) =
      number (l.map Prod.snd) + 256 ^ (l.map Prod.snd).length * carry m := by
    rw [Nat.two_mul]
    simpa [number, Function.comp_def] using hadds
  have hlt := number_lt (l.map Prod.snd)
  refine ⟨eq_mod_of_carry hdouble hlt, ?_⟩
  rw [← carry_eq_one]
  exact carry_eq_one_iff hdouble hlt (carry_le m)

theorem LsrChain.isHalf (h : LsrChain world l m) :
    IsHalf (l.reverse.map Prod.fst) (l.reverse.map Prod.snd) m := by
  have hhalves := Chain.halves (B := 256) (x := fun d : BitVec 8 × BitVec 8 => d.1.toNat)
    (z := fun d => d.2.toNat) (c := carry) (fun _ _ _ => Shifts.lsr) (fun s t => carry_same)
    (fun _ _ _ => Shifts.ror) h
  have hhalf : number (l.reverse.map Prod.fst) = 2 * number (l.reverse.map Prod.snd) + carry m := by
    simpa [number, Function.comp_def] using hhalves
  have hle := carry_le m
  refine ⟨by omega, ?_⟩
  rw [← carry_eq_one]
  omega

end Shifts

/-! ## Branches -/

inductive Condition where
  | hi
  | ls
  | hs
  | lo
  | ne
  | eq
  | ge
  | lt
  | gt
  | le
  deriving DecidableEq

/-- The opcode, behind 0x10 in the long form. -/
def Condition.opcode : Condition → BitVec 8
  | .hi => 0x22
  | .ls => 0x23
  | .hs => 0x24
  | .lo => 0x25
  | .ne => 0x26
  | .eq => 0x27
  | .ge => 0x2c
  | .lt => 0x2d
  | .gt => 0x2e
  | .le => 0x2f

/-- What the condition says of the flags. -/
def Condition.test (c : Condition) (m : Machine H) : Bool :=
  match c with
  | .hi => !(flag .C m || flag .Z m)
  | .ls => flag .C m || flag .Z m
  | .hs => !flag .C m
  | .lo => flag .C m
  | .ne => !flag .Z m
  | .eq => flag .Z m
  | .ge => !negative m
  | .lt => negative m
  | .gt => !(flag .Z m || negative m)
  | .le => flag .Z m || negative m

/-- What the condition says of two words. -/
def Condition.compares (c : Condition) (x y : BitVec 16) : Prop :=
  match c with
  | .hi => y.toNat < x.toNat
  | .ls => x.toNat ≤ y.toNat
  | .hs => y.toNat ≤ x.toNat
  | .lo => x.toNat < y.toNat
  | .ne => x ≠ y
  | .eq => x = y
  | .ge => y.toInt ≤ x.toInt
  | .lt => x.toInt < y.toInt
  | .gt => y.toInt < x.toInt
  | .le => x.toInt ≤ y.toInt

/-- An executed branch, with the address behind it and its offset. -/
inductive Branches (world : World H) (c : Condition) (m m' : Machine H) : BitVec 16 → BitVec 16 → Prop
  | short (hop : opcodeAt m = c.opcode) (hrun : dispatch world m = .ok () m') :
      Branches world c m m' (m.regPc + 2) ((m.mem.ram (m.regPc + 1)).signExtend 16)
  | long (hop : opcodeAt m = 0x10) (hop' : m.mem.ram (m.regPc + 1) = c.opcode)
      (hrun : dispatch world m = .ok () m') :
      Branches world c m m' (m.regPc + 4) (m.mem.ram (m.regPc + 2) ++ m.mem.ram (m.regPc + 3))

/-- The program goes on at the offset when `p` holds, and behind the branch otherwise. -/
def GoesIf (p : Prop) (next offset : BitVec 16) (m' : Machine H) : Prop :=
  (p → m'.regPc = next + offset) ∧ (¬p → m'.regPc = next)

theorem GoesIf.congr {p q : Prop} {next offset : BitVec 16} (h : GoesIf p next offset m') (hpq : p ↔ q) :
    GoesIf q next offset m' := by
  rwa [GoesIf, ← hpq]

/-- The pair of opcodes that a condition belongs to. -/
def Condition.pair : Condition → BranchTest
  | .hi | .ls => .hi
  | .hs | .lo => .hs
  | .ne | .eq => .ne
  | .ge | .lt => .ge
  | .gt | .le => .gt

/-- The low bit of the opcode inverts the test. -/
def Condition.odd : Condition → Bool
  | .hi | .hs | .ne | .ge | .gt => false
  | .ls | .lo | .eq | .lt | .le => true

theorem decode_short (c : Condition) : decode page0 c.opcode = some (.bra8 c.pair) := by
  cases c <;> decide

theorem decode_long (c : Condition) : decode page1 c.opcode = some (.bra16 c.pair) := by
  cases c <;> decide

theorem opcode_odd (c : Condition) : c.opcode.setWidth 32 &&& 1 = ofBit c.odd := by
  cases c <;> decide

theorem branchTest_pair (c : Condition) (m : Machine H) :
    branchTest c.pair m = .ok (ofBit (c.test m ^^ !c.odd)) m := by
  cases c <;>
    simp [branchTest, Condition.pair, Condition.test, Condition.odd, bind, EStateM.bind, pure, EStateM.pure, negative]

/-- The mask is all ones when the branch is taken. -/
theorem mask_eq (taken odd : Bool) :
    (ofBit (taken ^^ !odd) ^^^ ofBit odd) - 1 = if taken then BitVec.allOnes 32 else 0 := by
  cases taken <;> cases odd <;> decide

theorem signExtend_low (b : BitVec 8) : (signExtend (b.setWidth 32)).setWidth 16 = b.signExtend 16 := by
  revert b
  decide +kernel

theorem addPc_run (n : BitVec 32) (m : Machine H) :
    addPc n m = .ok () { m with regPc := m.regPc + n.setWidth 16 } := by
  have hpc : (m.regPc.setWidth 32 + n : BitVec 32).setWidth 16 = m.regPc + n.setWidth 16 := by
    rw [BitVec.setWidth_add _ _ (by decide)]
    simp
  rw [← hpc]
  rfl

theorem low_address (pc : BitVec 16) (n : BitVec 32) :
    ((pc.setWidth 32 + n) &&& 0xffff).setWidth 16 = pc + n.setWidth 16 := by
  have hmask : ∀ x : BitVec 32, (x &&& 0xffff).setWidth 16 = x.setWidth 16 := by
    intro x
    apply BitVec.eq_of_toNat_eq
    rw [BitVec.toNat_setWidth, BitVec.toNat_setWidth, BitVec.toNat_and,
      show (0xffff : BitVec 32).toNat = 2 ^ 16 - 1 from rfl, Nat.and_two_pow_sub_one_eq_mod, Nat.mod_mod]
  rw [hmask, BitVec.setWidth_add _ _ (by decide)]
  simp

theorem hiLo_low (hi lo : BitVec 8) : (hiLo hi lo).setWidth 16 = hi ++ lo := by
  have hlt := hiLo_lt hi lo
  apply BitVec.eq_of_toNat_eq
  rw [BitVec.toNat_setWidth, Nat.mod_eq_of_lt hlt, hiLo_toNat, BitVec.toNat_append,
    ← Nat.shiftLeft_add_eq_or_of_lt lo.isLt, Nat.shiftLeft_eq]

theorem pcRead16_run (m : Machine H) : ∃ v u, pcRead16 m = .ok v u ∧ u.regPc = m.regPc + 2 ∧
    v.setWidth 16 = m.mem.ram m.regPc ++ m.mem.ram (m.regPc + 1) := by
  refine ⟨_, _, rfl, ?_, ?_⟩
  · change (m.regPc.setWidth 32 + 2 : BitVec 32).setWidth 16 = m.regPc + 2
    rw [BitVec.setWidth_add _ _ (by decide)]
    simp
  · have h0 : (m.regPc.setWidth 32 &&& 0xffff : BitVec 32).setWidth 16 = m.regPc := by
      simpa using low_address m.regPc 0
    have h1 := low_address m.regPc 1
    change (hiLo (e6809Read8 m.mem (m.regPc.setWidth 32 &&& 0xffff))
      (e6809Read8 m.mem ((m.regPc.setWidth 32 + 1) &&& 0xffff))).setWidth 16 = _
    rw [hiLo_low, e6809Read8, e6809Read8, h0, h1]
    rfl

/-- The new program counter, given the mask. -/
theorem goesIf_of_mask {p : Bool} {next offset : BitVec 16} {v : BitVec 32} (hv : v.setWidth 16 = offset)
    (hpc : m'.regPc = next + (v &&& if p then BitVec.allOnes 32 else 0).setWidth 16) :
    GoesIf (p = true) next offset m' := by
  constructor
  · intro hp
    rw [hpc, if_pos hp, BitVec.and_allOnes, hv]
  · intro hp
    rw [hpc, if_neg hp]
    simp

theorem Branches.goes {c : Condition} {next offset : BitVec 16} (h : Branches world c m m' next offset) :
    GoesIf (c.test m = true) next offset m' := by
  cases h with
  | short hop hrun =>
    have hdec : Decodes m (.bra8 c.pair) c.opcode (afterFetch m) := by
      rw [← hop]
      exact .plain (by rw [hop, decode_short])
    have hexec := hdec.dispatch world
    have hfetch := pcRead8_run (afterFetch m)
    have hflags : c.test (afterFetch m) = c.test m := rfl
    simp only [EStateM.run] at hexec hfetch
    rw [hrun] at hexec
    simp only [exec, bind, EStateM.bind, branchTest_pair, instBra8, hfetch, opcode_odd, mask_eq, addPc_run,
      hflags] at hexec
    cases hexec
    refine goesIf_of_mask (v := signExtend ((opcodeAt (afterFetch m)).setWidth 32)) (signExtend_low _) ?_
    have hnext : m.regPc + 1 + 1 = m.regPc + 2 := BitVec.add_assoc m.regPc 1 1
    change m.regPc + 1 + 1 + _ = _
    rw [hnext]
  | long hop hop' hrun =>
    have hdec : Decodes m (.bra16 c.pair) c.opcode (afterFetch (afterFetch m)) := by
      rw [← hop']
      exact .after10 hop (by rw [← decode_long, ← hop']; rfl)
    have hexec := hdec.dispatch world
    obtain ⟨v, u, hfetch, hpc, hv⟩ := pcRead16_run (afterFetch (afterFetch m))
    have hflags : c.test (afterFetch (afterFetch m)) = c.test m := rfl
    simp only [EStateM.run] at hexec
    rw [hrun] at hexec
    simp only [exec, bind, EStateM.bind, branchTest_pair, instBra16, hfetch, opcode_odd, mask_eq, addPc_run,
      hflags] at hexec
    cases hexec
    have hnext : m.regPc + 1 + 1 = m.regPc + 2 := BitVec.add_assoc m.regPc 1 1
    have hlow : m.regPc + 1 + 1 + 1 = m.regPc + 3 := by rw [hnext, BitVec.add_assoc]; rfl
    have hbehind : m.regPc + 1 + 1 + 2 = m.regPc + 4 := by rw [hnext, BitVec.add_assoc]; rfl
    have hword : v.setWidth 16 = m.mem.ram (m.regPc + 1 + 1) ++ m.mem.ram (m.regPc + 1 + 1 + 1) := hv
    have hafter : u.regPc = m.regPc + 1 + 1 + 2 := hpc
    refine goesIf_of_mask (v := v) ?_ ?_
    · rw [hword, hlow, hnext]
    · rw [← hbehind, ← hafter]

/-! ## Compares -/

/-- A compare of a wide register that holds `x`, when it is read, with the operand `y`. -/
def Compares (world : World H) (r : Wide) (x y : BitVec 16) (m m' : Machine H) : Prop :=
  ∃ src cyc op t v u w, Decodes m (.cmp16 r src cyc) op t ∧ source16 src t = .ok v u ∧
    getWide r u = .ok w u ∧ w.setWidth 16 = x ∧ v.setWidth 16 = y ∧ dispatch world m = .ok () m'

theorem Compares.flags {r : Wide} {x y : BitVec 16} (h : Compares world r x y m m') :
    (flag .C m' = true ↔ x.toNat < y.toNat) ∧ (flag .Z m' = true ↔ x = y) ∧
      (negative m' = true ↔ x.toInt < y.toInt) := by
  obtain ⟨src, cyc, op, t, v, u, w, hdec, hsrc, hw, rfl, rfl, hrun⟩ := h
  have hexec := hdec.dispatch world
  simp only [EStateM.run] at hexec
  rw [hrun] at hexec
  simp only [exec, bind, EStateM.bind, hsrc, hw, instSub16_run] at hexec
  cases hexec
  change (flag .C (withWordSum w (~~~v) true true u) = true ↔ _) ∧
    (flag .Z (withWordSum w (~~~v) true true u) = true ↔ _) ∧
    (negative (withWordSum w (~~~v) true true u) = true ↔ _)
  have hnot : (~~~v).setWidth 16 = ~~~(v.setWidth 16) := BitVec.setWidth_not (by omega)
  have hsum := sum_toNat w (~~~v) true 16 (by omega)
  rw [negative, sign_wordSum, flag_C_wordSum, flag_Z_wordSum, hnot]
  rw [hnot] at hsum
  generalize BitVec.carry 16 w (~~~v) true = out at hsum ⊢
  generalize (w + ~~~v + ofBit true).setWidth 16 = z at hsum ⊢
  generalize w.setWidth 16 = x at hsum ⊢
  generalize v.setWidth 16 = y at hsum ⊢
  have hx := x.isLt
  have hy := y.isLt
  have hz := z.isLt
  have hnotNat : (~~~y).toNat = 65535 - y.toNat := by simp
  have hnotInt : (~~~y).toInt = -1 - y.toInt := by
    rw [BitVec.toInt_eq_toNat_cond, BitVec.toInt_eq_toNat_cond, hnotNat]
    split <;> split <;> omega
  rw [hnotNat] at hsum
  rw [hnotInt, decide_eq_true_iff, decide_eq_true_iff, Bool.toNat_true, ← BitVec.toNat_inj, ← BitVec.toNat_inj]
  refine ⟨?_, ?_, ?_⟩
  · cases out <;> simp at hsum ⊢ <;> omega
  · cases out <;> simp at hsum ⊢ <;> omega
  · omega

def SameFlags (m t : Machine H) : Prop :=
  flag .N t = flag .N m ∧ flag .Z t = flag .Z m ∧ flag .V t = flag .V m ∧ flag .C t = flag .C m

theorem SameFlags.test (h : SameFlags m t) (c : Condition) : c.test t = c.test m := by
  obtain ⟨hn, hz, hv, hc⟩ := h
  cases c <;> simp [Condition.test, negative, hn, hz, hv, hc]

theorem Compares.test {r : Wide} {x y : BitVec 16} (h : Compares world r x y m m') (c : Condition) :
    c.test m' = true ↔ c.compares x y := by
  obtain ⟨hc, hz, hn⟩ := h.flags
  have heq : x.toNat = y.toNat ↔ x = y := BitVec.toNat_inj
  have heqInt : x.toInt = y.toInt ↔ x = y := BitVec.toInt_inj
  cases c <;>
    simp only [Condition.test, Condition.compares, Bool.not_eq_true', Bool.or_eq_true, ← Bool.not_eq_true, hc, hz, hn]
  all_goals grind

/-! ## The laws together -/

/-- The branches after a subtraction of `y` from `x` go by their order. -/
structure BranchesByOrder (world : World H) (x y : List (BitVec 8)) (m : Machine H) : Prop where
  lo : ∀ t m' next offset, SameFlags m t → Branches world .lo t m' next offset →
    GoesIf (number x < number y) next offset m'
  hs : ∀ t m' next offset, SameFlags m t → Branches world .hs t m' next offset →
    GoesIf (number y ≤ number x) next offset m'
  lt : ∀ t m' next offset, SameFlags m t → Branches world .lt t m' next offset →
    GoesIf (signedNumber x < signedNumber y) next offset m'
  ge : ∀ t m' next offset, SameFlags m t → Branches world .ge t m' next offset →
    GoesIf (signedNumber y ≤ signedNumber x) next offset m'

theorem IsDifference.branches {x y z : List (BitVec 8)} (h : IsDifference x y z m) :
    BranchesByOrder world x y m := by
  constructor
  · intro t m' next offset hsame hbranch
    apply hbranch.goes.congr
    rw [hsame.test]
    exact h.borrow
  · intro t m' next offset hsame hbranch
    apply hbranch.goes.congr
    rw [hsame.test, ← Nat.not_lt, ← h.borrow]
    simp [Condition.test]
  · intro t m' next offset hsame hbranch
    apply hbranch.goes.congr
    rw [hsame.test]
    exact h.sign
  · intro t m' next offset hsame hbranch
    apply hbranch.goes.congr
    rw [hsame.test, ← Int.not_lt, ← h.sign]
    simp [Condition.test]

/-- Chains of byte instructions compute on whole numbers, and the branches behind a subtraction or
a compare go by the order of its operands. -/
theorem long_arithmetic (world : World H) :
    (∀ l m, AddChain world l m → IsSum (l.map Digit.x) (l.map Digit.y) (l.map Digit.z) m) ∧
    (∀ l m, SubChain world l m → IsDifference (l.map Digit.x) (l.map Digit.y) (l.map Digit.z) m ∧
      BranchesByOrder world (l.map Digit.x) (l.map Digit.y) m) ∧
    (∀ l m, AslChain world l m → IsDouble (l.map Prod.fst) (l.map Prod.snd) m) ∧
    (∀ l m, LsrChain world l m → IsHalf (l.reverse.map Prod.fst) (l.reverse.map Prod.snd) m) ∧
    (∀ r x y m u t m' c next offset, Compares world r x y m u → SameFlags u t →
      Branches world c t m' next offset → GoesIf (c.compares x y) next offset m') := by
  refine ⟨fun l m h => h.isSum, fun l m h => ⟨h.isDifference, h.isDifference.branches⟩,
    fun l m h => h.isDouble, fun l m h => h.isHalf, ?_⟩
  intro r x y m u t m' c next offset hcmp hsame hbranch
  apply hbranch.goes.congr
  rw [hsame.test]
  exact hcmp.test c

/-- `ADDB #$FF` and `ADCA #$01`, about to run on 0x0101 in D. -/
def adderMachine : Machine Unit :=
  { clearMachine (fun a => if a = 0 then 0xcb else if a = 1 then 0xff else if a = 2 then 0x89 else 0x01) with
    reg8 := fun r => if r = .a ∨ r = .b then 1 else 0 }

def adderMachine1 : Machine Unit := endState (dispatch quietWorld adderMachine)

def adderMachine2 : Machine Unit := endState (dispatch quietWorld adderMachine1)

theorem long_arithmetic_adder : IsSum [0x01, 0x01] [0x01, 0xff] [0x03, 0x00] adderMachine2 := by
  have hlow : Applies quietWorld .add8 .b ⟨0x01, 0xff, 0x00⟩ adderMachine adderMachine1 :=
    ⟨.immediate, 2, 0xcb, _, _, .plain (by decide), rfl, rfl, by decide, by decide⟩
  have hhigh : Applies quietWorld .adc .a ⟨0x01, 0x01, 0x03⟩ adderMachine1 adderMachine2 :=
    ⟨.immediate, 2, 0x89, _, _, .plain (by decide), rfl, rfl, by decide, by decide⟩
  exact (long_arithmetic quietWorld).1 [⟨0x01, 0x01, 0x03⟩, ⟨0x01, 0xff, 0x00⟩] adderMachine2
    (.more (.one ⟨.b, hlow⟩) rfl ⟨.a, hhigh⟩)

end Fuzemsys.Emulators.Cpu6809
