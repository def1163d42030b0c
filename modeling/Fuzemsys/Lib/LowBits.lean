import Mathlib.Data.BitVec

/-!
# Words that agree in their low bits

`LowEq n a b` says that two words of one width agree in bits 0 to n-1. It is a
congruence for the operations that only carry upwards, and masking the low bits
turns it into equality.
-/

namespace Fuzemsys.Lib

variable {w n m : Nat} {a b c d : BitVec w}

def LowEq (n : Nat) (a b : BitVec w) : Prop := a.setWidth n = b.setWidth n

instance (n : Nat) (a b : BitVec w) : Decidable (LowEq n a b) :=
  inferInstanceAs (Decidable (_ = _))

theorem lowEq_iff_getLsbD : LowEq n a b ↔ ∀ i < n, a.getLsbD i = b.getLsbD i := by
  constructor
  · intro h i hi
    have := congrArg (fun x => x.getLsbD i) h
    simpa [hi] using this
  · intro h
    apply BitVec.eq_of_getLsbD_eq
    intro i hi
    simp [hi, h i hi]

theorem lowEq_iff_mod : LowEq n a b ↔ a.toNat % 2 ^ n = b.toNat % 2 ^ n := by
  rw [LowEq, ← BitVec.toNat_inj, BitVec.toNat_setWidth, BitVec.toNat_setWidth]

@[refl]
theorem LowEq.refl (n : Nat) (a : BitVec w) : LowEq n a a := rfl

theorem LowEq.of_eq (h : a = b) : LowEq n a b := h ▸ LowEq.refl n a

theorem LowEq.mono (h : LowEq n a b) (hm : m ≤ n) : LowEq m a b :=
  lowEq_iff_getLsbD.mpr fun i hi => lowEq_iff_getLsbD.mp h i (Nat.lt_of_lt_of_le hi hm)

/-! ## Congruence -/

theorem LowEq.add (hab : LowEq n a b) (hcd : LowEq n c d) : LowEq n (a + c) (b + d) := by
  rw [lowEq_iff_mod] at *
  by_cases hn : n ≤ w
  · rw [BitVec.toNat_add, BitVec.toNat_add, Nat.mod_mod_of_dvd _ (Nat.pow_dvd_pow 2 hn),
      Nat.mod_mod_of_dvd _ (Nat.pow_dvd_pow 2 hn), Nat.add_mod, hab, hcd, ← Nat.add_mod]
  · have hpow : 2 ^ w ≤ 2 ^ n := Nat.pow_le_pow_right (by omega) (by omega)
    have hfull : ∀ x : BitVec w, x.toNat % 2 ^ n = x.toNat := fun x =>
      Nat.mod_eq_of_lt (Nat.lt_of_lt_of_le x.isLt hpow)
    rw [hfull, hfull] at hab hcd
    rw [hfull, hfull, BitVec.toNat_add, BitVec.toNat_add, hab, hcd]

theorem LowEq.not (hab : LowEq n a b) : LowEq n (~~~a) (~~~b) := by
  rw [lowEq_iff_getLsbD] at *
  intro i hi
  simp [hab i hi]

theorem LowEq.neg (hab : LowEq n a b) : LowEq n (-a) (-b) := by
  rw [BitVec.neg_eq_not_add, BitVec.neg_eq_not_add]
  exact hab.not.add (LowEq.refl n _)

theorem LowEq.sub (hab : LowEq n a b) (hcd : LowEq n c d) : LowEq n (a - c) (b - d) := by
  rw [BitVec.sub_eq_add_neg, BitVec.sub_eq_add_neg]
  exact hab.add hcd.neg

theorem LowEq.and (hab : LowEq n a b) (hcd : LowEq n c d) : LowEq n (a &&& c) (b &&& d) := by
  rw [lowEq_iff_getLsbD] at *
  intro i hi
  simp [hab i hi, hcd i hi]

theorem LowEq.or (hab : LowEq n a b) (hcd : LowEq n c d) : LowEq n (a ||| c) (b ||| d) := by
  rw [lowEq_iff_getLsbD] at *
  intro i hi
  simp [hab i hi, hcd i hi]

theorem LowEq.xor (hab : LowEq n a b) (hcd : LowEq n c d) : LowEq n (a ^^^ c) (b ^^^ d) := by
  rw [lowEq_iff_getLsbD] at *
  intro i hi
  simp [hab i hi, hcd i hi]

theorem LowEq.shiftLeft (hab : LowEq n a b) (k : Nat) : LowEq (n + k) (a <<< k) (b <<< k) := by
  rw [lowEq_iff_getLsbD] at *
  intro i hi
  simp only [BitVec.getLsbD_shiftLeft]
  by_cases hk : i < k
  · simp [hk]
  · rw [hab (i - k) (by omega)]

theorem LowEq.shiftRight (hab : LowEq (n + k) a b) : LowEq n (a >>> k) (b >>> k) := by
  rw [lowEq_iff_getLsbD] at *
  intro i hi
  simp only [BitVec.getLsbD_ushiftRight]
  exact hab (k + i) (by omega)

/-! ## Where low bits are all there is -/

theorem LowEq.mask (hab : LowEq n a b) (mask : BitVec w) (hmask : mask.toNat < 2 ^ n) :
    a &&& mask = b &&& mask := by
  rw [lowEq_iff_getLsbD] at hab
  apply BitVec.eq_of_getLsbD_eq
  intro i _
  simp only [BitVec.getLsbD_and]
  by_cases hi : i < n
  · rw [hab i hi]
  · have hzero : mask.getLsbD i = false := by
      rw [BitVec.getLsbD, Nat.testBit_lt_two_pow]
      exact Nat.lt_of_lt_of_le hmask (Nat.pow_le_pow_right (by omega) (by omega))
    simp [hzero]

/-- One bit, moved to the bottom. -/
theorem LowEq.bit (hab : LowEq n a b) (k : Nat) (hk : k < n) (one : BitVec w) (hone : one.toNat ≤ 1) :
    (a >>> k) &&& one = (b >>> k) &&& one :=
  have hlow : LowEq 1 (a >>> k) (b >>> k) := LowEq.shiftRight (hab.mono (by omega))
  hlow.mask one (by omega)

end Fuzemsys.Lib
