import Mathlib.Data.Nat.Digits.Lemmas

/-!
# Digit after digit with a carry

A long number is worked on one digit at a time, the least significant digit
first, and one carry goes from each digit to the next. What holds of every single
digit then holds of the whole number.
-/

namespace Fuzemsys.Lib

universe u v

/-! ## Numbers with the most significant digit first -/

def bigEndian (B : Nat) (l : List Nat) : Nat := Nat.ofDigits B l.reverse

@[simp]
theorem bigEndian_nil (B : Nat) : bigEndian B [] = 0 := rfl

@[simp]
theorem bigEndian_cons (B x : Nat) (l : List Nat) :
    bigEndian B (x :: l) = bigEndian B l + B ^ l.length * x := by
  simp [bigEndian, Nat.ofDigits_append]

theorem bigEndian_concat (B x : Nat) (l : List Nat) : bigEndian B (l ++ [x]) = x + B * bigEndian B l := by
  simp [bigEndian, Nat.ofDigits_cons]

theorem bigEndian_lt {B : Nat} {l : List Nat} (hB : 1 < B) (hl : ∀ x ∈ l, x < B) :
    bigEndian B l < B ^ l.length := by
  unfold bigEndian
  rw [← List.length_reverse]
  apply Nat.ofDigits_lt_base_pow_length hB
  simpa using hl

/-! ## The carry of a whole number -/

/-- The low digits and the carry are the quotient and the remainder of the sum. -/
theorem eq_mod_of_carry {s z p c : Nat} (hs : s = z + p * c) (hz : z < p) : z = s % p := by
  rw [hs, Nat.add_mul_mod_self_left, Nat.mod_eq_of_lt hz]

theorem carry_eq_one_iff {s z p c : Nat} (hs : s = z + p * c) (hz : z < p) (hc : c ≤ 1) :
    c = 1 ↔ p ≤ s := by
  obtain rfl | rfl : c = 0 ∨ c = 1 := by omega
  · simp only [Nat.mul_zero] at hs
    omega
  · simp only [Nat.mul_one] at hs
    omega

theorem eq_mod_add_carry {s p c : Nat} (hs : s < 2 * p) (hc : c ≤ 1) (hcarry : c = 1 ↔ p ≤ s) :
    s = s % p + p * c := by
  by_cases hp : p ≤ s
  · rw [hcarry.mpr hp, Nat.mod_eq_sub_mod hp, Nat.mod_eq_of_lt (by omega)]
    omega
  · have hzero : c = 0 := by
      have hne := mt hcarry.mp hp
      omega
    rw [hzero, Nat.mod_eq_of_lt (by omega)]
    omega

theorem borrow_eq_one_iff {x y z p c : Nat} (hs : y + z = x + p * c) (hz : z < p) (hc : c ≤ 1) :
    c = 1 ↔ x < y := by
  obtain rfl | rfl : c = 0 ∨ c = 1 := by omega
  · simp only [Nat.mul_zero] at hs
    omega
  · simp only [Nat.mul_one] at hs
    omega

/-- The sign of a number in base `p` is the sign of its upper part. -/
theorem neg_iff_upper_neg {u : Int} {z p : Nat} (hz : z < p) : u * p + z < 0 ↔ u < 0 := by
  have hz' : (z : Int) < p := by exact_mod_cast hz
  have hz0 : (0 : Int) ≤ z := Int.natCast_nonneg z
  constructor
  · intro h
    by_contra hu
    have hmul : 0 ≤ u * p := Int.mul_nonneg (by omega) (by omega)
    omega
  · intro hu
    have hmul : u * p ≤ -1 * p := Int.mul_le_mul_of_nonneg_right (by omega) (by omega)
    omega

/-! ## Chains -/

variable {α : Type u} {σ : Type v} {first next : α → σ → σ → Prop} {same : σ → σ → Prop}

/-- The operation `first` on the last digit of the list, then `next` on each digit before it.
Between two operations the state may change in what `same` does not fix. -/
inductive Chain (first next : α → σ → σ → Prop) (same : σ → σ → Prop) : List α → σ → Prop
  | one {a : α} {s t : σ} (hfirst : first a s t) : Chain first next same [a] t
  | more {l : List α} {a : α} {s t u : σ} (hl : Chain first next same l s) (hsame : same s t)
      (hnext : next a t u) : Chain first next same (a :: l) u

/-- When every digit adds up with its carry, the numbers add up with the last carry. -/
theorem Chain.adds {B : Nat} {x y z : α → Nat} {c : σ → Nat}
    (hfirst : ∀ a s t, first a s t → x a + y a = z a + B * c t)
    (hsame : ∀ s t, same s t → c t = c s)
    (hnext : ∀ a s t, next a s t → x a + y a + c s = z a + B * c t) {l : List α} {s : σ}
    (h : Chain first next same l s) :
    bigEndian B (l.map x) + bigEndian B (l.map y) = bigEndian B (l.map z) + B ^ l.length * c s := by
  induction h with
  | one h => simpa using hfirst _ _ _ h
  | @more l a s t u hl hst htu ih =>
    have hdigit := hnext a t u htu
    rw [hsame s t hst] at hdigit
    have hscaled : B ^ l.length * (x a + y a + c s) = B ^ l.length * (z a + B * c u) :=
      congrArg (B ^ l.length * ·) hdigit
    simp only [List.map_cons, bigEndian_cons, List.length_map, List.length_cons, Nat.pow_succ]
    rw [Nat.mul_add, Nat.mul_add, Nat.mul_add, ← Nat.mul_assoc] at hscaled
    omega

/-- A chain from the other end: the head of the list is now the least significant digit. When
every digit halves with the bit that comes in above it, so does the number. -/
theorem Chain.halves {B : Nat} {x z : α → Nat} {c : σ → Nat}
    (hfirst : ∀ a s t, first a s t → x a = 2 * z a + c t)
    (hsame : ∀ s t, same s t → c t = c s)
    (hnext : ∀ a s t, next a s t → x a + B * c s = 2 * z a + c t) {l : List α} {s : σ}
    (h : Chain first next same l s) :
    bigEndian B (l.reverse.map x) = 2 * bigEndian B (l.reverse.map z) + c s := by
  induction h with
  | one h => simpa using hfirst _ _ _ h
  | @more l a s t u hl hst htu ih =>
    have hdigit := hnext a t u htu
    rw [hsame s t hst] at hdigit
    have hscaled : B * bigEndian B (l.reverse.map x) = B * (2 * bigEndian B (l.reverse.map z) + c s) :=
      congrArg (B * ·) ih
    simp only [List.reverse_cons, List.map_append, List.map_cons, List.map_nil, bigEndian_concat]
    rw [Nat.mul_add, Nat.mul_left_comm] at hscaled
    omega

end Fuzemsys.Lib
