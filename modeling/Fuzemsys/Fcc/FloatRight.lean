import Fuzemsys.Fcc.FloatOrder
import Fuzemsys.Fcc.FloatText
import Mathlib.Tactic.FieldSimp
import Mathlib.Tactic.Ring
import Mathlib.Tactic.Positivity
import Mathlib.Tactic.NormNum
import Mathlib.Tactic.Linarith

/-!
# The patterns of floating constants
-/

open Fuzemsys.Lib

namespace Fuzemsys.Fcc

/-! ## Single precision -/

/-- `p` is a normal number of IEEE 754, its sign clear, and `v` its value. -/
def IsSingle (p : BitVec 32) (v : Rat) : Prop :=
  ∃ e m : Nat, 1 ≤ e ∧ e ≤ 254 ∧ m < 2 ^ 23 ∧ p.toNat = e * 2 ^ 23 + m ∧ v = (2 ^ 23 + m : Nat) * 2 ^ ((e : Int) - 150)

variable {h : Host} {s : Source h} {c : Byte} {more rest : List Byte} {sum : BitVec 32} {x : Scaled} {v : Rat}

theorem encode_single (hx : x.Normal) (hlow : -153 ≤ x.exp) (hhigh : x.exp ≤ 100)
    (hv : v = (x.mant / 16 : Nat) * 2 ^ (x.exp + 4)) : IsSingle (BitVec.ofNat 32 x.encode) v := by
  unfold Scaled.Normal at hx
  obtain ⟨e, he⟩ := Int.eq_ofNat_of_zero_le (show 0 ≤ x.exp + 154 by omega)
  refine ⟨e, x.mant / 16 - 2 ^ 23, by omega, by omega, by omega, ?_, ?_⟩
  · unfold Scaled.encode
    rw [if_neg (by omega), if_neg (by omega), he, Int.toNat_natCast, BitVec.toNat_ofNat, Nat.mod_eq_of_lt (by omega)]
  · rw [hv, show 2 ^ 23 + (x.mant / 16 - 2 ^ 23) = x.mant / 16 by omega, ← he]
    congr 2
    omega

/-- Numbers from a quarter to 2^24 differ in the upper two bits of the exponent. -/
theorem IsSingle.upper {p : BitVec 32} (hp : IsSingle p v) (hlow : 1 / 4 ≤ v) (hhigh : v < 2 ^ 24) :
    p.getLsbD 30 ≠ p.getLsbD 29 := by
  obtain ⟨e, m, -, -, hm, hp, hv⟩ := hp
  have hmant : (2 : Rat) ^ 23 ≤ (2 ^ 23 + m : Nat) ∧ ((2 ^ 23 + m : Nat) : Rat) < 2 ^ 24 := by
    constructor
    · exact_mod_cast Nat.le_add_right _ _
    · exact_mod_cast (by omega : 2 ^ 23 + m < 2 ^ 24)
  have hpow : (0 : Rat) < 2 ^ ((e : Int) - 150) := zpow_pos (by norm_num) _
  have hbelow : e < 151 := by
    by_contra hge
    have hone : (1 : Rat) ≤ 2 ^ ((e : Int) - 150) := one_le_zpow₀ (by norm_num) (by omega)
    have : e ≠ 150 := by omega
    have htwo : (2 : Rat) ≤ 2 ^ ((e : Int) - 150) := by
      rw [show (e : Int) - 150 = 1 + ((e : Int) - 151) by omega, zpow_add₀ (by norm_num), zpow_one]
      exact le_mul_of_one_le_right (by norm_num) (one_le_zpow₀ (by norm_num) (by omega))
    nlinarith
  have habove : 125 ≤ e := by
    by_contra hlt
    have hsmall : (2 : Rat) ^ ((e : Int) - 150) ≤ 2 ^ (-26 : Int) := zpow_le_zpow_right₀ (by norm_num) (by omega)
    have hsame : (2 : Rat) ^ (-26 : Int) = 1 / 2 ^ 26 := by norm_num
    rw [hsame] at hsmall
    nlinarith
  rw [BitVec.getLsbD, BitVec.getLsbD, Nat.testBit_eq_decide_div_mod_eq, Nat.testBit_eq_decide_div_mod_eq, hp]
  intro hsame
  have hsame := decide_eq_decide.mp hsame
  omega

theorem log2_shifted {n k δ : Nat} (hn : n ≠ 0) (hδ : δ < 2 ^ k) : Nat.log2 (n * 2 ^ k + δ) = Nat.log2 n + k := by
  apply Scaled.log2_eq
  · rw [Nat.pow_add]
    exact (Nat.mul_le_mul_right _ (Nat.log2_self_le hn)).trans (Nat.le_add_right _ _)
  · calc n * 2 ^ k + δ < (n + 1) * 2 ^ k := by rw [Nat.add_mul, Nat.one_mul]; omega
      _ ≤ 2 ^ (Nat.log2 n + 1) * 2 ^ k := Nat.mul_le_mul_right _ Nat.lt_log2_self
      _ = 2 ^ (Nat.log2 n + k + 1) := by rw [← Nat.pow_add]; congr 1; omega

namespace Scaled

/-- The value is `n`. -/
def Exact (x : Scaled) (n : Nat) : Prop := ∃ k : Nat, x.exp = -(k : Int) ∧ x.mant = n * 2 ^ k

/-- The mantissa of a small integer ends with zeros. -/
theorem two_pow_le_of_normal {n k j : Nat} (hx : (⟨-(k : Int), n * 2 ^ k⟩ : Scaled).Normal) (hn : n < 2 ^ (27 - j)) :
    j < k := by
  unfold Normal at hx
  dsimp only at hx
  by_contra hge
  have hpow : 2 ^ k ≤ 2 ^ j := Nat.pow_le_pow_right (by decide) (by omega)
  have hlt : n * 2 ^ k < 2 ^ (27 - j) * 2 ^ j :=
    (Nat.mul_le_mul_left _ hpow).trans_lt (Nat.mul_lt_mul_of_pos_right hn (Nat.two_pow_pos j))
  rw [← Nat.pow_add] at hlt
  rcases Nat.lt_or_ge 27 j with hj | hj
  · rw [show 27 - j = 0 by omega] at hn
    obtain rfl : n = 0 := by omega
    omega
  · rw [show 27 - j + j = 27 by omega] at hlt
    omega

theorem ofFixed_exact {n : Nat} (hn : n ≠ 0) (hlt : n < 2 ^ 24) : (ofFixed (n * 2 ^ 32)).Exact n := by
  have hlog : Nat.log2 n < 24 := (Nat.log2_lt hn).mpr hlt
  have hfixed := log2_shifted (k := 32) (δ := 0) hn (Nat.two_pow_pos 32)
  rw [Nat.add_zero] at hfixed
  refine ⟨27 - Nat.log2 n, ?_, ?_⟩ <;> unfold ofFixed <;> dsimp only <;> rw [hfixed]
  · omega
  · rw [show 59 - (Nat.log2 n + 32) = 27 - Nat.log2 n by omega, Nat.mul_right_comm,
      Nat.mul_div_cancel _ (Nat.two_pow_pos 32)]

theorem timesTen_exact {n : Nat} (hx : x.Normal) (hex : x.Exact n) (hlt : n * 10 < 2 ^ 24) : x.timesTen.Exact (n * 10) := by
  obtain ⟨k, hexp, hmant⟩ := hex
  obtain ⟨e, m⟩ := x
  dsimp only at hexp hmant
  subst hexp hmant
  have hk : 6 < k := two_pow_le_of_normal hx (by omega)
  obtain ⟨j, rfl⟩ : ∃ j, k = j + 4 := ⟨k - 4, by omega⟩
  have hten : n * 2 ^ (j + 4) * 10 = n * 10 * 2 ^ j * 16 := by
    rw [Nat.pow_add, Nat.mul_right_comm, Nat.mul_assoc]
    simp only [Nat.reducePow, Nat.mul_assoc]
  unfold timesTen
  dsimp only
  rw [hten]
  split
  · refine ⟨j + 1, by dsimp only; omega, ?_⟩
    dsimp only
    rw [Nat.pow_succ, ← Nat.mul_assoc]
    omega
  · exact ⟨j, by dsimp only; omega, Nat.mul_div_cancel _ (by decide)⟩

theorem iterate_timesTen_exact {n : Nat} (k : Nat) (hx : x.Normal) (hex : x.Exact n) (hlt : n * 10 ^ k < 2 ^ 24) :
    (timesTen^[k] x).Exact (n * 10 ^ k) ∧ (timesTen^[k] x).Normal := by
  induction k generalizing x n with
  | zero => exact ⟨by simpa using hex, hx⟩
  | succ k ih =>
    have hpow : n * 10 ^ (k + 1) = n * 10 * 10 ^ k := by rw [Nat.pow_succ]; ac_rfl
    rw [hpow] at hlt ⊢
    have hone : n * 10 < 2 ^ 24 := (Nat.le_mul_of_pos_right _ (Nat.pow_pos (by decide))).trans_lt hlt
    exact ih (timesTen_normal hx) (timesTen_exact hx hex hone) hlt

theorem Exact.single {n : Nat} (hx : x.Normal) (hex : x.Exact n) (hlt : n < 2 ^ 24) :
    IsSingle (BitVec.ofNat 32 x.encode) n := by
  obtain ⟨k, hexp, hmant⟩ := hex
  obtain ⟨e, m⟩ := x
  dsimp only at hexp hmant
  subst hexp hmant
  have hk : 3 < k := two_pow_le_of_normal hx hlt
  obtain ⟨j, rfl⟩ : ∃ j, k = j + 4 := ⟨k - 4, by omega⟩
  have hbig : j + 4 ≤ 28 := by
    have hn : n ≠ 0 := by
      rintro rfl
      unfold Normal at hx
      dsimp only at hx
      omega
    by_contra hgt
    have hpow : 2 ^ 28 ≤ 2 ^ (j + 4) := Nat.pow_le_pow_right (by decide) (by omega)
    have := Nat.le_mul_of_pos_left (2 ^ (j + 4)) (Nat.pos_of_ne_zero hn)
    unfold Normal at hx
    dsimp only at hx
    omega
  refine encode_single hx (by dsimp only; omega) (by dsimp only; omega) ?_
  dsimp only
  rw [Nat.pow_add, ← Nat.mul_assoc, show (2 : Nat) ^ 4 = 16 from rfl, Nat.mul_div_cancel _ (by decide)]
  rw [show -((j + 4 : Nat) : Int) + 4 = -(j : Int) by omega, zpow_neg, zpow_natCast]
  push_cast
  field_simp

/-- What the table adds to halves and quarters is cut off. -/
theorem ofFixed_single {n j δ : Nat} (hn : n ≠ 0) (hlt : n < 2 ^ 24) (hj : j ≤ 2) (hδ : δ < 2 ^ 6) :
    IsSingle (BitVec.ofNat 32 (ofFixed (n * 2 ^ (32 - j) + δ)).encode) (n / 2 ^ j) := by
  have hnlog : Nat.log2 n < 24 := (Nat.log2_lt hn).mpr hlt
  have hlog : Nat.log2 (n * 2 ^ (32 - j) + δ) = Nat.log2 n + (32 - j) :=
    log2_shifted hn (hδ.trans_le (Nat.pow_le_pow_right (by decide) (by omega)))
  have hnz : n * 2 ^ (32 - j) + δ ≠ 0 := by
    have := Nat.mul_pos (Nat.pos_of_ne_zero hn) (Nat.two_pow_pos (32 - j))
    omega
  have hnormal : (ofFixed (n * 2 ^ (32 - j) + δ)).Normal :=
    (ofFixed_normal hnz ((Nat.log2_lt hnz).mp (by omega))).1
  -- the number of zeros in front
  obtain ⟨k, hk⟩ : ∃ k, 59 - (Nat.log2 n + (32 - j)) = k + 4 + j := ⟨23 - Nat.log2 n, by omega⟩
  have hkle : k ≤ 23 := by omega
  have hmant : (ofFixed (n * 2 ^ (32 - j) + δ)).mant / 16 = n * 2 ^ k := by
    unfold ofFixed
    dsimp only
    rw [hlog, hk, Nat.div_div_eq_div_mul]
    have hdelta : δ * 2 ^ (k + 4 + j) < 2 ^ 32 * 16 := by
      have hpow : 2 ^ (k + 4 + j) ≤ 2 ^ 29 := Nat.pow_le_pow_right (by decide) (by omega)
      calc δ * 2 ^ (k + 4 + j) ≤ δ * 2 ^ 29 := Nat.mul_le_mul_left _ hpow
        _ < 2 ^ 32 * 16 := by omega
    have hmain : n * 2 ^ (32 - j) * 2 ^ (k + 4 + j) = n * 2 ^ k * (2 ^ 32 * 16) := by
      rw [Nat.mul_assoc, Nat.mul_assoc, ← Nat.pow_add, show (2 : Nat) ^ 32 * 16 = 2 ^ 36 from rfl, ← Nat.pow_add]
      congr 2
      omega
    rw [Nat.add_mul, hmain, Nat.mul_comm _ (2 ^ 32 * 16), Nat.mul_add_div (by decide), Nat.div_eq_of_lt hdelta,
      Nat.add_zero]
  have hexp : (ofFixed (n * 2 ^ (32 - j) + δ)).exp = -((k + 4 + j : Nat) : Int) := by
    unfold ofFixed
    dsimp only
    rw [hlog]
    omega
  refine encode_single hnormal (by omega) (by omega) ?_
  rw [hmant, hexp, show -((k + 4 + j : Nat) : Int) + 4 = -((k + j : Nat) : Int) by omega, zpow_neg, zpow_natCast,
    pow_add]
  push_cast
  field_simp

end Scaled

/-! ## Fractions -/

variable {ds : List Byte}

theorem digitsValue_append (base v : Nat) (ds es : List Byte) :
    digitsValue base v (ds ++ es) = digitsValue base (digitsValue base v ds) es := List.foldl_append

theorem digitsValue_zeros (hds : ∀ d ∈ ds, d = 0x30) (v : Nat) : digitsValue 10 v ds = v * 10 ^ ds.length := by
  induction ds generalizing v with
  | nil => simp [digitsValue]
  | cons d ds ih =>
    obtain rfl : d = 0x30 := hds d List.mem_cons_self
    rw [digitsValue_cons, ih fun d hd => hds d (List.mem_cons_of_mem _ hd), show digitValue 0x30 = 0 from rfl,
      List.length_cons, Nat.pow_succ]
    ac_rfl

theorem fractionSum_zeros (hds : ∀ d ∈ ds, d = 0x30) (n : Nat) (frac : BitVec 32) : fractionSum n frac ds = frac := by
  induction ds generalizing n with
  | nil => rfl
  | cons d ds ih =>
    obtain rfl : d = 0x30 := hds d List.mem_cons_self
    have ih := ih fun d hd => hds d (List.mem_cons_of_mem _ hd)
    have hzero : frac + digit 0x30 * fraction.getD n 0 = frac := by
      rw [show digit 0x30 = 0#32 from rfl, BitVec.zero_mul, BitVec.add_zero]
    simp only [fractionSum, hzero, ih, ite_self]

theorem digit_mul_toNat {d : Byte} (hd : isdigit d = true) {z : BitVec 32} (hz : 9 * z.toNat < 2 ^ 32) :
    (digit d * z).toNat = digitValue d * z.toNat := by
  obtain ⟨heq, hlt⟩ := digit_toNat hd
  rw [BitVec.toNat_mul, heq, Nat.mod_eq_of_lt]
  exact (Nat.mul_le_mul_right _ (Nat.le_of_lt_succ hlt)).trans_lt hz

/-- A half from one digit. -/
theorem fraction_halves {d : Byte} (hd : isdigit d = true) {k : Nat} (hk : digitValue d = 5 * k) :
    ∃ δ < 2 ^ 6, (fractionSum 0 0 [d]).toNat = k * 2 ^ 31 + δ := by
  have hlt := (digit_toNat hd).2
  have hsum : (fractionSum 0 0 [d]).toNat = digitValue d * 0x199999A0 := by
    show (0#32 + digit d * 0x199999A0 : BitVec 32).toNat = _
    rw [BitVec.zero_add, digit_mul_toNat hd (by decide)]
    rfl
  rw [hsum, hk]
  obtain rfl | rfl : k = 0 ∨ k = 1 := by omega
  · exact ⟨0, by decide, rfl⟩
  · exact ⟨0x20, by decide, rfl⟩

/-- Quarters from two digits. -/
theorem fraction_quarters {d e : Byte} (hd : isdigit d = true) (he : isdigit e = true) {k : Nat}
    (hk : digitValue d * 10 + digitValue e = 25 * k) :
    ∃ δ < 2 ^ 6, (fractionSum 0 0 [d, e]).toNat = k * 2 ^ 30 + δ := by
  have hsum : (fractionSum 0 0 [d, e]).toNat = (digitValue d * 0x199999A0 + digitValue e * 0x28F5C28) % 2 ^ 32 := by
    show (0#32 + digit d * 0x199999A0 + digit e * 0x28F5C28 : BitVec 32).toNat = _
    rw [BitVec.zero_add, BitVec.toNat_add, digit_mul_toNat hd (by decide), digit_mul_toNat he (by decide)]
    rfl
  have hparts : k = 0 ∧ digitValue d = 0 ∧ digitValue e = 0 ∨ k = 1 ∧ digitValue d = 2 ∧ digitValue e = 5 ∨
      k = 2 ∧ digitValue d = 5 ∧ digitValue e = 0 ∨ k = 3 ∧ digitValue d = 7 ∧ digitValue e = 5 := by
    have hdlt := (digit_toNat hd).2
    have helt := (digit_toNat he).2
    clear hsum
    obtain rfl | rfl | rfl | rfl : k = 0 ∨ k = 1 ∨ k = 2 ∨ k = 3 := by omega
    all_goals omega
  rw [hsum]
  obtain ⟨rfl, hdv, hev⟩ | ⟨rfl, hdv, hev⟩ | ⟨rfl, hdv, hev⟩ | ⟨rfl, hdv, hev⟩ := hparts <;> rw [hdv, hev]
  · exact ⟨0, by decide, rfl⟩
  · exact ⟨8, by decide, rfl⟩
  · exact ⟨0x20, by decide, rfl⟩
  · exact ⟨0x28, by decide, rfl⟩

/-- The least form of a number of quarters. -/
theorem quarters_form {q j m : Nat} (hm : m < 2 ^ 24) (heq : q * 2 ^ j = 4 * m) :
    ∃ n i, i ≤ 2 ∧ n < 2 ^ 24 ∧ n * 2 ^ (32 - i) = q * 2 ^ 30 ∧ (n : Rat) / 2 ^ i = q / 4 := by
  rcases Nat.lt_or_ge 2 j with hj | hj
  · obtain ⟨k, rfl⟩ : ∃ k, j = k + 2 := ⟨j - 2, by omega⟩
    rw [Nat.pow_add, ← Nat.mul_assoc] at heq
    have hle := Nat.le_mul_of_pos_right q (Nat.two_pow_pos k)
    exact ⟨q, 2, le_rfl, by omega, rfl, by norm_num⟩
  · refine ⟨m, j, hj, hm, ?_, ?_⟩
    · have hsplit : 2 ^ 32 = 2 ^ j * 2 ^ (32 - j) := by
        rw [← Nat.pow_add]
        congr 1
        omega
      have hfour : q * 2 ^ 32 = 4 * m * 2 ^ (32 - j) := by rw [hsplit, ← Nat.mul_assoc, heq]
      rw [Nat.mul_assoc] at hfour
      omega
    · have heq : (q : Rat) * 2 ^ j = 4 * m := by exact_mod_cast heq
      rw [div_eq_div_iff (by positivity) (by norm_num), mul_comm, ← heq]

end Fuzemsys.Fcc
