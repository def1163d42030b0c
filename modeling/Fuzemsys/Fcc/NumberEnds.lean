import Fuzemsys.Fcc.Number

/-!
# Which numbers are converted

`convert_fix32` shifts up until a bit is set, so it never ends when no bit can get there.
That is the only way it does not end.
-/

open Fuzemsys.Lib

namespace Fuzemsys.Fcc

variable {h : Host} {n : Nat} {sum frac : BitVec 32} {exp : BitVec n}

/-! ## One bit -/

theorem and_bit_ne_zero (x : BitVec 32) {i : Nat} (hi : i < 32) :
    x &&& BitVec.twoPow 32 i ≠ 0 ↔ x.toNat / 2 ^ i % 2 = 1 := by
  have hbit : x.getLsbD i = decide (x.toNat / 2 ^ i % 2 = 1) := by
    rw [BitVec.getLsbD, Nat.testBit_eq_decide_div_mod_eq]
  rw [BitVec.and_twoPow, hbit]
  by_cases hset : x.toNat / 2 ^ i % 2 = 1
  · have hne : BitVec.twoPow 32 i ≠ 0 := by
      intro hzero
      have := congrArg BitVec.toNat hzero
      rw [BitVec.toNat_twoPow_of_lt hi] at this
      simp at this
    simp only [hset, decide_true, if_true, iff_true]
    exact hne
  · simp [hset]

theorem toNat_shiftLeft_one (x : BitVec 32) : (x <<< 1).toNat = 2 * x.toNat % 2 ^ 32 := by
  rw [BitVec.toNat_shiftLeft, Nat.shiftLeft_eq]
  omega

theorem toNat_shiftLeft_carry (x : BitVec 32) : (x <<< 1 ||| 1).toNat = 2 * x.toNat % 2 ^ 32 + 1 := by
  have heven : 2 * x.toNat % 2 ^ 32 = 2 ^ 1 * (x.toNat % 2 ^ 31) := by omega
  have hor := Nat.two_pow_add_eq_or_of_lt (i := 1) (b := 1) (by decide) (x.toNat % 2 ^ 31)
  rw [BitVec.toNat_or, toNat_shiftLeft_one, heven]
  exact hor.symm

/-! ## Shifting up -/

/-- What is left of the fixed point value below the bit that is waited for. -/
def pending (i : Nat) (sum frac : BitVec 32) : Nat := sum.toNat % 2 ^ (i + 1) * 2 ^ 32 + frac.toNat

/-- The bits that the loops wait for. -/
def awaited (i : Nat) : Prop := i = 27 ∨ i = 23

theorem pending_lt {i : Nat} (hi : awaited i) (sum frac : BitVec 32) : pending i sum frac < 2 ^ (i + 33) := by
  have hsum := Nat.mod_lt sum.toNat (Nat.two_pow_pos (i + 1))
  have hfrac := frac.isLt
  unfold pending
  rcases hi with rfl | rfl <;> omega

theorem shiftUpTurn_bit {i : Nat} (hi : awaited i) (hbit : sum.toNat / 2 ^ i % 2 = 1) :
    shiftUpTurn (BitVec.twoPow 32 i) (exp, sum, frac) = some (.inr (exp, sum, frac)) := by
  have hlt : i < 32 := by rcases hi with rfl | rfl <;> decide
  exact if_pos ((and_bit_ne_zero sum hlt).mpr hbit)

/-- A turn without the bit doubles what is pending. -/
theorem shiftUpTurn_shift {i : Nat} (exp : BitVec n) (frac : BitVec 32) (hi : awaited i) (hbit : sum.toNat / 2 ^ i % 2 = 0) :
    ∃ sum' frac', shiftUpTurn (BitVec.twoPow 32 i) (exp, sum, frac) = some (.inl (exp - 1, sum', frac')) ∧
      pending i sum' frac' = 2 * pending i sum frac := by
  have hlt : i < 32 := by rcases hi with rfl | rfl <;> decide
  have hclear : ¬ sum &&& BitVec.twoPow 32 i ≠ 0 := by
    rw [and_bit_ne_zero sum hlt]
    omega
  refine ⟨_, _, if_neg hclear, ?_⟩
  have hcarry : frac &&& 0x80000000 ≠ 0 ↔ frac.toNat / 2 ^ 31 % 2 = 1 := and_bit_ne_zero frac (show 31 < 32 by decide)
  have hfrac := toNat_shiftLeft_one frac
  have hbound := frac.isLt
  unfold pending
  by_cases htop : frac.toNat / 2 ^ 31 % 2 = 1
  · rw [if_pos (hcarry.mpr htop), toNat_shiftLeft_carry, hfrac]
    rcases hi with rfl | rfl <;> omega
  · rw [if_neg (mt hcarry.mp htop), show sum <<< 1 ||| (0 : BitVec 32) = sum <<< 1 from BitVec.or_zero, toNat_shiftLeft_one, hfrac]
    rcases hi with rfl | rfl <;> omega

theorem shiftUp_terminates_iff {i : Nat} (exp : BitVec n) (sum frac : BitVec 32) (hi : awaited i) :
    (Terminates fun fuel => shiftUp (BitVec.twoPow 32 i) fuel exp sum frac) ↔ pending i sum frac ≠ 0 := by
  have hset (sum frac : BitVec 32) (hbit : sum.toNat / 2 ^ i % 2 = 1) : pending i sum frac ≠ 0 := by
    unfold pending
    rcases hi with rfl | rfl <;> omega
  refine terminates_loop_iff_start (fun s : BitVec n × BitVec 32 × BitVec 32 => pending i s.2.1 s.2.2 = 0)
    (fun s => 2 ^ (i + 33) - pending i s.2.1 s.2.2) ?_ ?_ ?_
  · rintro ⟨exp, sum, frac⟩ hstuck
    rcases Nat.mod_two_eq_zero_or_one (sum.toNat / 2 ^ i) with hbit | hbit
    · obtain ⟨sum', frac', hturn, hdouble⟩ := shiftUpTurn_shift exp frac hi hbit
      refine ⟨_, hturn, ?_⟩
      rw [hdouble, hstuck]
    · exact absurd hstuck (hset sum frac hbit)
  all_goals
    rintro ⟨exp, sum, frac⟩ s' hpending hturn
    rcases Nat.mod_two_eq_zero_or_one (sum.toNat / 2 ^ i) with hbit | hbit
    · obtain ⟨sum', frac', hturn', hdouble⟩ := shiftUpTurn_shift exp frac hi hbit
      rw [hturn'] at hturn
      cases hturn
      have hlt := pending_lt hi sum' frac'
      simp only [hdouble] at hlt hpending ⊢
      omega
    · rw [shiftUpTurn_bit hi hbit] at hturn
      cases hturn

theorem shiftUp_steady (bit : BitVec 32) (exp : BitVec n) (sum frac : BitVec 32) :
    Steady fun fuel => shiftUp bit fuel exp sum frac := steady_loop _

/-- When it ends the bit is set. -/
theorem shiftUp_bit {i fuel : Nat} (hi : awaited i) {exp' : BitVec n} {sum' frac' : BitVec 32}
    (hdone : shiftUp (BitVec.twoPow 32 i) fuel exp sum frac = .done (exp', sum', frac')) :
    sum'.toNat / 2 ^ i % 2 = 1 := by
  obtain ⟨⟨exp1, sum1, frac1⟩, -, hturn⟩ := loop_done hdone
  rcases Nat.mod_two_eq_zero_or_one (sum1.toNat / 2 ^ i) with hbit | hbit
  · obtain ⟨_, _, hturn', -⟩ := shiftUpTurn_shift exp1 frac1 hi hbit
    rw [hturn'] at hturn
    cases hturn
  · rw [shiftUpTurn_bit hi hbit] at hturn
    cases hturn
    exact hbit

/-! ## Shifting down -/

theorem and_high_ne_zero (x : BitVec 32) {k : Nat} (hk : k < 32) :
    x &&& BitVec.allOnes 32 <<< k ≠ 0 ↔ 2 ^ k ≤ x.toNat := by
  have hiff : x &&& BitVec.allOnes 32 <<< k = 0 ↔ x.toNat < 2 ^ k := by
    constructor
    · intro hzero
      apply Nat.lt_pow_two_of_testBit
      intro i hi
      have hbit := congrArg (fun y => y.getLsbD i) hzero
      by_cases hlt : i < 32
      · simp only [BitVec.getLsbD_and, BitVec.getLsbD_shiftLeft, BitVec.getLsbD_allOnes, hlt, Nat.not_lt.mpr hi,
          show i - k < 32 by omega] at hbit
        simp only [decide_true, Bool.not_false, Bool.and_true, decide_false] at hbit
        exact hbit.trans BitVec.getLsbD_zero
      · exact Nat.testBit_lt_two_pow (x.isLt.trans_le (Nat.pow_le_pow_right (by decide) (by omega)))
    · intro hlt
      ext i hi
      by_cases hik : i < k
      · simp [hik]
      · have hclear : x.toNat.testBit i = false :=
          Nat.testBit_lt_two_pow (hlt.trans_le (Nat.pow_le_pow_right (by decide) (by omega)))
        simp [← BitVec.getLsbD_eq_getElem, BitVec.getLsbD, hclear]
  rw [Ne, hiff, Nat.not_lt]

theorem shiftDown_spec {k : Nat} (hk : 0 < k ∧ k < 32) (exp : BitVec n) (hsum : sum.toNat ≠ 0) :
    (shiftDown (BitVec.allOnes 32 <<< k) exp sum).2.toNat ≠ 0 ∧
      (shiftDown (BitVec.allOnes 32 <<< k) exp sum).2.toNat < 2 ^ k := by
  fun_induction shiftDown (BitVec.allOnes 32 <<< k) exp sum with
  | case1 exp sum hmask ih =>
    apply ih
    have hle := (and_high_ne_zero sum hk.2).mp hmask
    have htwo := Nat.pow_le_pow_right (show 0 < 2 by decide) hk.1
    rw [BitVec.toNat_ushiftRight, Nat.shiftRight_eq_div_pow]
    omega
  | case2 exp sum hmask =>
    have hlt := mt (and_high_ne_zero sum hk.2).mpr hmask
    exact ⟨hsum, Nat.not_le.mp hlt⟩

/-! ## Powers of ten -/

/-- It can be multiplied by ten, or has its 28th bit. -/
def Mantissa (sum : BitVec 32) : Prop := sum.toNat ≠ 0 ∧ (sum.toNat < 2 ^ 28 ∨ sum.toNat / 2 ^ 27 % 2 = 1)

/-- An odd multiple of a power of two is not ten times a higher one. -/
theorem ten_mul_ne_zero {x : Nat} (hbit : x / 2 ^ 27 % 2 = 1) : x * 10 % 2 ^ 32 ≠ 0 := by
  intro hzero
  have htwice : 2 ^ 31 * 2 ∣ x * 5 * 2 := by
    rw [Nat.mul_assoc]
    exact Nat.dvd_of_mod_eq_zero hzero
  have hcoprime : Nat.Coprime (2 ^ 31) 5 := Nat.Coprime.pow_left 31 (by decide)
  have hdvd : 2 ^ 31 ∣ x := hcoprime.dvd_of_dvd_mul_right (Nat.dvd_of_mul_dvd_mul_right (by decide) htwice)
  obtain ⟨c, rfl⟩ := hdvd
  omega

theorem timesTen_mantissa (k : Nat) (exp : BitVec n) (hsum : Mantissa sum) : Mantissa (timesTen k exp sum).2 := by
  induction k generalizing exp sum with
  | zero => exact hsum
  | succ k ih =>
    have hten : (sum * 10).toNat ≠ 0 := by
      obtain ⟨hne, hlt | hbit⟩ := hsum
      · rw [BitVec.toNat_mul, show (10 : BitVec 32).toNat = 10 from rfl, Nat.mod_eq_of_lt (by omega)]
        omega
      · rw [BitVec.toNat_mul, show (10 : BitVec 32).toNat = 10 from rfl]
        exact ten_mul_ne_zero hbit
    obtain ⟨hne, hlt⟩ := shiftDown_spec (k := 28) (by decide) exp hten
    exact ih _ ⟨hne, .inl hlt⟩

theorem overTen_steady (k : Nat) (exp : BitVec n) (sum : BitVec 32) : Steady fun fuel => overTen fuel k exp sum := by
  induction k generalizing exp sum with
  | zero => exact steady_const _
  | succ k ih =>
    unfold overTen
    exact (shiftUp_steady _ _ _ _).bind fun r => ih r.1 r.2.1

/-- A tenth of it still has bits below the 28th. -/
theorem overTen_terminates (k : Nat) (exp : BitVec n) (hbit : sum.toNat / 2 ^ 27 % 2 = 1) :
    (Terminates fun fuel => overTen fuel k exp sum) ∧
      ∀ fuel r, overTen fuel k exp sum = .done r → r.2.toNat / 2 ^ 27 % 2 = 1 := by
  induction k generalizing exp sum with
  | zero =>
    refine ⟨terminates_const (by simp), fun fuel r hr => ?_⟩
    cases hr
    exact hbit
  | succ k ih =>
    have hpending : pending 27 (sum / 10) 0 ≠ 0 := by
      have hlt := sum.isLt
      unfold pending
      rw [BitVec.toNat_udiv, show (10 : BitVec 32).toNat = 10 from rfl, show (0 : BitVec 32).toNat = 0 from rfl]
      omega
    have hup := (shiftUp_terminates_iff exp _ _ (.inl rfl)).mpr hpending
    unfold overTen
    constructor
    · refine (terminates_bind_iff (shiftUp_steady _ _ _ _) fun r => overTen_steady k r.1 r.2.1).mpr ⟨hup, ?_⟩
      rintro fuel ⟨exp', sum', frac'⟩ hdone
      exact (ih exp' (shiftUp_bit (.inl rfl) hdone)).1
    · intro fuel r hr
      obtain ⟨⟨exp', sum', frac'⟩, hdone, hr⟩ := Outcome.bind_eq_done.mp hr
      exact (ih exp' (shiftUp_bit (.inl rfl) hdone)).2 fuel r hr

/-! ## convert_fix32 -/

theorem convertFix32_steady (u : Unspecified h) (exp : BitVec h.intBits) (sum frac : BitVec 32) (uexp : BitVec h.intBits) :
    Steady fun fuel => convertFix32 u fuel exp sum frac uexp := by
  unfold convertFix32
  split
  · exact steady_const _
  · refine (shiftUp_steady _ _ _ _).bind fun r => ?_
    refine (overTen_steady _ _ _).bind fun r' => ?_
    exact (shiftUp_steady _ _ _ _).bind fun r'' => steady_const _

/-- The fixed point value is zero, or has a bit that can be shifted up. -/
def Convertible (sum frac : BitVec 32) : Prop := (sum = 0 ∧ frac = 0) ∨ pending 27 sum frac ≠ 0

instance (sum frac : BitVec 32) : Decidable (Convertible sum frac) := inferInstanceAs (Decidable (_ ∨ _))

/-- The loops behind the first one end. -/
theorem fix32_tail_terminates (u : Unspecified h) {exp : BitVec h.intBits} (uexp : BitVec h.intBits)
    (hbit : sum.toNat / 2 ^ 27 % 2 = 1) : Terminates fun fuel =>
    (overTen fuel (-uexp.toInt).toNat (timesTen uexp.toInt.toNat exp sum).1 (timesTen uexp.toInt.toNat exp sum).2).bind
      fun (exp, sum) =>
      (shiftUp 0x00800000 fuel (shiftDown 0xFF000000 (exp + 22) sum).1 (shiftDown 0xFF000000 (exp + 22) sum).2 frac).bind
        fun (exp, sum, _) => .done (assemble u (exp + 128) sum) := by
  refine (terminates_bind_iff (overTen_steady _ _ _) fun r => ?_).mpr ⟨?_, ?_⟩
  · exact (shiftUp_steady _ _ _ _).bind fun r => steady_const _
  all_goals
    generalize hk : uexp.toInt.toNat = k
    generalize hk' : (-uexp.toInt).toNat = k'
    have hone : k = 0 ∨ k' = 0 := by omega
  · rcases hone with rfl | rfl
    · exact (overTen_terminates k' exp hbit).1
    · exact terminates_const (by simp)
  · rintro fuel ⟨exp', sum'⟩ hdone
    have hne : sum'.toNat ≠ 0 := by
      rcases hone with rfl | rfl
      · have := (overTen_terminates k' exp hbit).2 fuel _ hdone
        intro hzero
        simp [hzero] at this
      · cases hdone
        exact (timesTen_mantissa k exp ⟨by omega, .inr hbit⟩).1
    obtain ⟨hne', hlt⟩ := shiftDown_spec (k := 24) (by decide) (exp' + 22) hne
    have hpending : pending 23 (shiftDown 0xFF000000 (exp' + 22) sum').2 frac ≠ 0 := by
      have hne'' : (shiftDown 0xFF000000 (exp' + 22) sum').2.toNat ≠ 0 := hne'
      have hlt' : (shiftDown 0xFF000000 (exp' + 22) sum').2.toNat < 2 ^ 24 := hlt
      unfold pending
      omega
    refine (terminates_bind_iff (shiftUp_steady _ _ _ _) fun r => steady_const _).mpr ⟨?_, fun _ _ _ => terminates_const (by simp)⟩
    exact (shiftUp_terminates_iff _ _ _ (.inr rfl)).mpr hpending

theorem convertFix32_terminates_iff (u : Unspecified h) (exp : BitVec h.intBits) (sum frac : BitVec 32)
    (uexp : BitVec h.intBits) : (Terminates fun fuel => convertFix32 u fuel exp sum frac uexp) ↔ Convertible sum frac := by
  unfold convertFix32 Convertible
  by_cases hzero : sum = 0 ∧ frac = 0
  · simp only [if_pos hzero]
    exact iff_of_true (terminates_const (by simp)) (.inl hzero)
  · simp only [if_neg hzero]
    rw [or_iff_right hzero]
    have hup := shiftUp_terminates_iff exp sum frac (.inl rfl)
    rw [← hup]
    refine (terminates_bind_iff (shiftUp_steady _ _ _ _) fun r => ?_).trans (and_iff_left ?_)
    · refine (overTen_steady _ _ _).bind fun r' => ?_
      exact (shiftUp_steady _ _ _ _).bind fun r'' => steady_const _
    · rintro fuel ⟨exp', sum', frac'⟩ hdone
      exact fix32_tail_terminates u uexp (shiftUp_bit (.inl rfl) hdone)

end Fuzemsys.Fcc
