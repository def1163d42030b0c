import Fuzemsys.Fcc.FloatRight

/-!
# Floating constants and their patterns
-/

open Fuzemsys.Lib

namespace Fuzemsys.Fcc.FloatText

variable {h : Host} {s : Source h} {c : Byte} {t t₁ t₂ : FloatText} {m : Nat}

/-! ## The constants of the claimed forms -/

/-- No decimals that count, and no negative exponent. -/
def IsWhole (t : FloatText) (m : Nat) : Prop :=
  (∀ d ∈ t.fraction.getD [], d = 0x30) ∧ 0 ≤ t.power ∧ t.value = m

/-- One or two decimals, which make a binary fraction. -/
def IsBinary (t : FloatText) (m j : Nat) : Prop :=
  t.power = 0 ∧ ((t.fraction.getD []).length = 1 ∨ (t.fraction.getD []).length = 2) ∧ t.value = m / 2 ^ j

def InForm (t : FloatText) : Prop := ∃ m, 0 < m ∧ m < 2 ^ 24 ∧ (t.IsWhole m ∨ ∃ j, t.IsBinary m j)

/-- The 32.32 fixed point value. -/
def fixedValue (t : FloatText) : Nat :=
  fixed (BitVec.ofNat 32 t.wholeValue) (fractionSum 0 0 (t.fraction.getD []))

/-- What the fixed point value is scaled and assembled to. -/
def encoded (t : FloatText) : BitVec 32 :=
  if t.fixedValue = 0 then 0 else BitVec.ofNat 32 ((Scaled.ofFixed t.fixedValue).scale t.power).encode

/-! ## Reading -/

theorem fixedValue_eq (hwhole : t.wholeValue < 2 ^ 28) :
    t.fixedValue = t.wholeValue * 2 ^ 32 + (fractionSum 0 0 (t.fraction.getD [])).toNat := by
  unfold fixedValue fixed
  rw [BitVec.toNat_ofNat, Nat.mod_eq_of_lt (by omega)]

/-- What is needed of a constant to be right. -/
structure Ready (t : FloatText) : Prop where
  whole : t.wholeValue < 2 ^ 24
  power : t.power.natAbs < 8
  some : t.fixedValue ≠ 0
  single : IsSingle t.encoded t.value
  low : 1 / 4 ≤ t.value
  high : t.value < 2 ^ 24

theorem IsWhole.ready (ht : t.IsWhole m) (hpos : 0 < m) (hlt : m < 2 ^ 24) : t.Ready := by
  obtain ⟨hzeros, hpower, hvalue⟩ := ht
  obtain ⟨k, hk⟩ := Int.eq_ofNat_of_zero_le hpower
  have hm : t.wholeValue * 10 ^ k = m := by
    have hq := hvalue
    unfold value at hq
    rw [digitsValue_append, digitsValue_zeros hzeros, hk, zpow_natCast, Nat.cast_mul, Nat.cast_pow,
      Nat.cast_ofNat, mul_div_cancel_right₀ _ (by positivity)] at hq
    exact_mod_cast hq
  have hten : 0 < 10 ^ k := Nat.pow_pos (by decide)
  have hwhole : t.wholeValue < 2 ^ 24 := (Nat.le_mul_of_pos_right _ hten).trans_lt (hm ▸ hlt)
  have hne : t.wholeValue ≠ 0 := by
    intro hzero
    rw [hzero, Nat.zero_mul] at hm
    omega
  have hsmall : k < 8 := by
    by_contra hge
    have hpow : 10 ^ 8 ≤ 10 ^ k := Nat.pow_le_pow_right (by decide) (by omega)
    have := hpow.trans (Nat.le_mul_of_pos_left _ (Nat.pos_of_ne_zero hne))
    omega
  have hfixed : t.fixedValue = t.wholeValue * 2 ^ 32 := by
    rw [fixedValue_eq (by omega), fractionSum_zeros hzeros, show (0 : BitVec 32).toNat = 0 from rfl, Nat.add_zero]
  have hsome : t.fixedValue ≠ 0 := by omega
  refine ⟨hwhole, by omega, hsome, ?_, ?_, ?_⟩
  · unfold encoded
    rw [if_neg hsome, hfixed, Scaled.scale_up _ hpower, hvalue]
    have hnormal := (Scaled.ofFixed_normal hsome (by omega)).1
    rw [hfixed] at hnormal
    obtain ⟨hexact, hnormal⟩ := Scaled.iterate_timesTen_exact k hnormal (Scaled.ofFixed_exact hne hwhole) (hm ▸ hlt)
    rw [hk, Int.toNat_natCast]
    rw [hm] at hexact
    exact hexact.single hnormal hlt
  · rw [hvalue]
    have : (1 : Rat) ≤ m := by exact_mod_cast hpos
    linarith
  · rw [hvalue]
    exact_mod_cast hlt

/-- Only quarters are binary fractions. -/
theorem hundredths {W f j : Nat} (heq : (W * 100 + f) * 2 ^ j = 100 * m) : ∃ k, f = 25 * k ∧ (4 * W + k) * 2 ^ j = 4 * m := by
  have hcoprime : Nat.Coprime 25 (2 ^ j) := Nat.Coprime.pow_right j (by decide)
  have hdvd : 25 ∣ W * 100 + f := hcoprime.dvd_of_dvd_mul_right ⟨4 * m, by rw [heq]; omega⟩
  obtain ⟨k, rfl⟩ : ∃ k, f = 25 * k := ⟨f / 25, by omega⟩
  refine ⟨k, rfl, ?_⟩
  rw [show W * 100 + 25 * k = 25 * (4 * W + k) by omega, Nat.mul_assoc] at heq
  omega

/-- The value in quarters, and what the table gives. -/
theorem IsBinary.quarters {j : Nat} (ht : t.IsBinary m j) :
    ∃ q δ, q * 2 ^ j = 4 * m ∧ δ < 2 ^ 6 ∧ 4 * t.wholeValue ≤ q ∧ t.value = q / 4 ∧
      t.wholeValue * 2 ^ 32 + (fractionSum 0 0 (t.fraction.getD [])).toNat = q * 2 ^ 30 + δ := by
  obtain ⟨hpower, hlength, hvalue⟩ := ht
  have hdigits := t.fraction_right
  have hexp : t.value = (digitsValue 10 t.wholeValue (t.fraction.getD []) : Rat) / 10 ^ (t.fraction.getD []).length := by
    unfold value
    rw [hpower, zpow_zero, mul_one, digitsValue_append]
    rfl
  have hclear {f : Nat} (hf : t.value = (t.wholeValue * 100 + f : Nat) / 100) :
      ∃ k, f = 25 * k ∧ (4 * t.wholeValue + k) * 2 ^ j = 4 * m ∧ t.value = (4 * t.wholeValue + k : Nat) / 4 := by
    have heq : (t.wholeValue * 100 + f) * 2 ^ j = 100 * m := by
      rw [hvalue, div_eq_div_iff (by positivity) (by norm_num)] at hf
      have hf : m * 100 = (t.wholeValue * 100 + f) * 2 ^ j := by exact_mod_cast hf
      rw [← hf, Nat.mul_comm]
    obtain ⟨k, rfl, hfour⟩ := hundredths heq
    refine ⟨k, rfl, hfour, ?_⟩
    rw [hf]
    push_cast
    ring
  rcases hlength with hlen | hlen
  · obtain ⟨d, hd⟩ := List.length_eq_one_iff.mp hlen
    rw [hd] at hdigits hexp ⊢
    obtain ⟨k, hk, hfour, hquarters⟩ := @hclear (digitValue d * 10) (by
      rw [hexp, digitsValue_cons]
      simp only [digitsValue, List.foldl_nil, List.length_cons, List.length_nil]
      push_cast
      ring)
    have hdone := hdigits d List.mem_cons_self
    obtain ⟨i, rfl⟩ : ∃ i, k = 2 * i := ⟨k / 2, by omega⟩
    obtain ⟨δ, hδ, hsum⟩ := fraction_halves hdone (k := i) (by omega)
    exact ⟨_, δ, hfour, hδ, Nat.le_add_right _ _, hquarters, by omega⟩
  · obtain ⟨d, e, hd⟩ := List.length_eq_two.mp hlen
    rw [hd] at hdigits hexp ⊢
    obtain ⟨k, hk, hfour, hquarters⟩ := @hclear (digitValue d * 10 + digitValue e) (by
      rw [hexp, digitsValue_cons, digitsValue_cons]
      simp only [digitsValue, List.foldl_nil, List.length_cons, List.length_nil]
      push_cast
      ring)
    obtain ⟨δ, hδ, hsum⟩ := fraction_quarters (hdigits d (by simp)) (hdigits e (by simp)) hk
    exact ⟨_, δ, hfour, hδ, Nat.le_add_right _ _, hquarters, by omega⟩

theorem IsBinary.ready {j : Nat} (ht : t.IsBinary m j) (hpos : 0 < m) (hlt : m < 2 ^ 24) : t.Ready := by
  obtain ⟨q, δ, hfour, hδ, hwhole, hvalue, hsum⟩ := ht.quarters
  obtain ⟨n, i, hi, hn, hsame, hform⟩ := quarters_form hlt hfour
  have hq : q ≠ 0 := by
    rintro rfl
    omega
  have hqle : q ≤ 4 * m := by
    rw [← hfour]
    exact Nat.le_mul_of_pos_right _ (Nat.two_pow_pos j)
  have hfixed : t.fixedValue = n * 2 ^ (32 - i) + δ := by rw [fixedValue_eq (by omega), hsum, hsame]
  have hsome : t.fixedValue ≠ 0 := by omega
  have hne : n ≠ 0 := by
    rintro rfl
    omega
  refine ⟨by omega, by rw [ht.1]; decide, hsome, ?_, ?_, ?_⟩
  · unfold encoded
    rw [if_neg hsome, ht.1, hfixed, hvalue, ← hform]
    exact Scaled.ofFixed_single hne hn hi hδ
  · rw [hvalue]
    have : (1 : Rat) ≤ q := by exact_mod_cast Nat.one_le_iff_ne_zero.mpr hq
    linarith
  · rw [hvalue]
    have : (q : Rat) < 4 * 2 ^ 24 := by exact_mod_cast (by omega : q < 4 * 2 ^ 24)
    linarith

theorem InForm.ready (ht : t.InForm) : t.Ready := by
  obtain ⟨m, hpos, hlt, hwhole | ⟨j, hbinary⟩⟩ := ht
  · exact hwhole.ready hpos hlt
  · exact hbinary.ready hpos hlt

/-! ## Results -/

/-- A character has been read and the rest follows. -/
def reading (c : Byte) (more : List Byte) : Source .linux where
  front := .start
  inp := more
  pushback := []
  isnl := decide (c = 0x0A)
  lastbslash := decide (c = 0x5C)

end Fuzemsys.Fcc.FloatText
