import Mathlib.Data.BitVec
import Mathlib.Data.Int.ModEq
import Mathlib.Tactic.GCongr
import Mathlib.Tactic.NormNum
import Mathlib.Tactic.Ring

/-!
# Integers of a fixed width

A format has a width and maybe a sign. `wrap` takes an integer to the one of the format
that agrees with it in the low bits. What only carries upwards may be computed in any
wider format first.
-/

namespace Fuzemsys.Lib

structure Format where
  width : Nat
  signed : Bool
  deriving DecidableEq, Repr

namespace Format

variable {f g : Format} {x y : Int} {n m k : Nat}

def wrap (f : Format) (x : Int) : Int := if f.signed then x.bmod (2 ^ f.width) else x % 2 ^ f.width

theorem bmod_modEq (x : Int) (hk : k ≤ n) : x.bmod (2 ^ n) ≡ x [ZMOD 2 ^ k] := by
  refine Int.ModEq.of_dvd (pow_dvd_pow 2 hk) ?_
  have hbmod := Int.bmod_emod (x := x) (m := 2 ^ n)
  push_cast at hbmod
  exact hbmod

theorem wrap_modEq (f : Format) (x : Int) : f.wrap x ≡ x [ZMOD 2 ^ f.width] := by
  unfold wrap
  split
  · exact bmod_modEq x le_rfl
  · exact Int.emod_emod_of_dvd x dvd_rfl

theorem wrap_eq_iff : f.wrap x = f.wrap y ↔ x ≡ y [ZMOD 2 ^ f.width] := by
  constructor
  · intro heq
    exact (f.wrap_modEq x).symm.trans (heq ▸ f.wrap_modEq y)
  · intro hmod
    unfold Int.ModEq at hmod
    unfold wrap Int.bmod
    push_cast
    rw [hmod]

theorem wrap_modEq_of_le (hle : f.width ≤ g.width) (x : Int) : g.wrap x ≡ x [ZMOD 2 ^ f.width] :=
  (g.wrap_modEq x).of_dvd (pow_dvd_pow 2 hle)

/-- A format in between does not matter if it is as wide. -/
theorem wrap_wrap_of_le (hle : f.width ≤ g.width) (x : Int) : f.wrap (g.wrap x) = f.wrap x :=
  wrap_eq_iff.mpr (wrap_modEq_of_le hle x)

@[simp]
theorem wrap_wrap (f : Format) (x : Int) : f.wrap (f.wrap x) = f.wrap x := wrap_wrap_of_le le_rfl x

theorem wrap_nonneg (hsigned : f.signed = false) (x : Int) : 0 ≤ f.wrap x := by
  unfold wrap
  rw [hsigned, if_neg Bool.false_ne_true]
  exact Int.emod_nonneg x (by positivity)

/-- The small numbers are in every format. -/
theorem wrap_of_small (hx : 0 ≤ x) (hlt : x < 2 ^ n) (hn : n + 1 ≤ f.width) : f.wrap x = x := by
  have hpow : (2 : Int) ^ (n + 1) ≤ 2 ^ f.width := by
    gcongr
    norm_num
  rw [pow_succ] at hpow
  unfold wrap
  split
  · rw [Int.bmod_eq_of_le] <;> push_cast <;> omega
  · exact Int.emod_eq_of_lt hx (by omega)

/-- The numbers of a format are in every format with the same sign that is as wide. -/
theorem wrap_of_wider (hsigned : f.signed = g.signed) (hle : g.width ≤ f.width) (hx : g.wrap x = x) : f.wrap x = x := by
  have hpow : 2 ^ g.width ≤ 2 ^ f.width := Nat.pow_le_pow_right (by decide) hle
  have hpos : 0 < 2 ^ g.width := Nat.two_pow_pos _
  unfold wrap at hx ⊢
  rw [hsigned]
  split at hx
  · next hsigned =>
    rw [if_pos hsigned]
    have hlow := Int.le_bmod (x := x) hpos
    have hhigh := Int.bmod_lt (x := x) hpos
    rw [hx] at hlow hhigh
    refine Int.bmod_eq_of_le ?_ ?_ <;> omega
  · next hsigned =>
    rw [if_neg hsigned]
    have hpos' : (0 : Int) < 2 ^ g.width := by positivity
    have hlow := Int.emod_nonneg x hpos'.ne'
    have hhigh := Int.emod_lt_of_pos x hpos'
    rw [hx] at hlow hhigh
    have hpow' : (2 : Int) ^ g.width ≤ 2 ^ f.width := mod_cast hpow
    exact Int.emod_eq_of_lt hlow (by omega)

/-- An unsigned number is in every wider format. -/
theorem wrap_of_unsigned (hunsigned : g.signed = false) (hlt : g.width < f.width) (hx : g.wrap x = x) :
    f.wrap x = x := by
  have hlow := wrap_nonneg hunsigned x
  have hhigh : g.wrap x < 2 ^ g.width := by
    unfold wrap
    rw [hunsigned, if_neg Bool.false_ne_true]
    exact Int.emod_lt_of_pos x (by positivity)
  rw [hx] at hlow hhigh
  exact wrap_of_small hlow hhigh hlt

/-! ## Bit patterns -/

theorem toInt_modEq_toNat (a : BitVec n) : a.toInt ≡ a.toNat [ZMOD 2 ^ n] := by
  rw [BitVec.toInt_eq_toNat_bmod]
  exact bmod_modEq _ le_rfl

theorem toInt_ofInt_modEq (x : Int) (hk : k ≤ n) : (BitVec.ofInt n x).toInt ≡ x [ZMOD 2 ^ k] := by
  rw [BitVec.toInt_ofInt]
  exact bmod_modEq x hk

/-- Integers agree in their low bits as the patterns do. -/
theorem toInt_modEq_iff {a : BitVec n} {b : BitVec m} (hn : k ≤ n) (hm : k ≤ m) :
    a.toInt ≡ b.toInt [ZMOD 2 ^ k] ↔ a.setWidth k = b.setWidth k := by
  have ha := (toInt_modEq_toNat a).of_dvd (pow_dvd_pow 2 hn)
  have hb := (toInt_modEq_toNat b).of_dvd (pow_dvd_pow 2 hm)
  rw [← BitVec.toNat_inj, BitVec.toNat_setWidth, BitVec.toNat_setWidth]
  constructor
  · intro hmod
    have hnat := ha.symm.trans (hmod.trans hb)
    unfold Int.ModEq at hnat
    exact_mod_cast hnat
  · intro hnat
    refine ha.trans (Int.ModEq.trans ?_ hb.symm)
    unfold Int.ModEq
    exact_mod_cast hnat

theorem bitwise_modEq {op : {n : Nat} → BitVec n → BitVec n → BitVec n}
    (hop : ∀ {n k : Nat} (a b : BitVec n), (op a b).setWidth k = op (a.setWidth k) (b.setWidth k))
    {a b : BitVec n} {c d : BitVec m} (hn : k ≤ n) (hm : k ≤ m) (hac : a.toInt ≡ c.toInt [ZMOD 2 ^ k])
    (hbd : b.toInt ≡ d.toInt [ZMOD 2 ^ k]) : (op a b).toInt ≡ (op c d).toInt [ZMOD 2 ^ k] := by
  rw [toInt_modEq_iff hn hm] at *
  rw [hop, hop, hac, hbd]

theorem toInt_add_modEq (a b : BitVec n) (hk : k ≤ n) : (a + b).toInt ≡ a.toInt + b.toInt [ZMOD 2 ^ k] := by
  rw [BitVec.toInt_add]
  exact bmod_modEq _ hk

theorem toInt_neg_modEq (a : BitVec n) (hk : k ≤ n) : (-a).toInt ≡ -a.toInt [ZMOD 2 ^ k] := by
  rw [BitVec.toInt_neg]
  exact bmod_modEq _ hk

theorem toInt_sub_modEq (a b : BitVec n) (hk : k ≤ n) : (a - b).toInt ≡ a.toInt - b.toInt [ZMOD 2 ^ k] := by
  rw [BitVec.toInt_sub]
  exact bmod_modEq _ hk

theorem toInt_mul_modEq (a b : BitVec n) (hk : k ≤ n) : (a * b).toInt ≡ a.toInt * b.toInt [ZMOD 2 ^ k] := by
  rw [BitVec.toInt_mul]
  exact bmod_modEq _ hk

theorem toInt_not_modEq (a : BitVec n) (hk : k ≤ n) : (~~~a).toInt ≡ -a.toInt - 1 [ZMOD 2 ^ k] := by
  rw [BitVec.toInt_not]
  refine (bmod_modEq _ hk).trans (Int.ModEq.of_dvd (pow_dvd_pow 2 hk) ?_)
  have hnat := ((toInt_modEq_toNat a).neg.sub_right 1).symm
  refine Int.ModEq.trans ?_ hnat
  rw [Int.modEq_iff_dvd]
  exact ⟨-1, by ring⟩

end Format

end Fuzemsys.Lib
