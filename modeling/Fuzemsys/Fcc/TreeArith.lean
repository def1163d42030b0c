import Fuzemsys.Fcc.TreeSettled

/-!
# The arithmetic of the compiler and of the target

What `constify` computes in an unsigned long is, reduced to the type, what the target
computes, if the operands fit the operator.
-/

open Fuzemsys.Lib

namespace Fuzemsys.Fcc.Tree

variable {h : Host} {t lt rt : CType} {v w : BitVec h.longBits} {x y z : Int}

/-! ## Reduced values -/

theorem reduce_eq_iff : reduce t x = reduce t y ↔ x ≡ y [ZMOD 2 ^ (format t).width] := Format.wrap_eq_iff

theorem reduce_modEq (hle : (format t).width ≤ (format lt).width) (x : Int) :
    reduce lt x ≡ x [ZMOD 2 ^ (format t).width] := Format.wrap_modEq_of_le hle x

@[simp]
theorem reduce_reduce (t : CType) (x : Int) : reduce t (reduce t x) = reduce t x := Format.wrap_wrap _ x

theorem reduce_reduce_of_le (hle : (format t).width ≤ (format lt).width) (x : Int) :
    reduce t (reduce lt x) = reduce t x := Format.wrap_wrap_of_le hle x

theorem reduce_small (t : CType) (hx : 0 ≤ x) (hlt : x < 2 ^ 7) : reduce t x = x :=
  Format.wrap_of_small hx hlt (format_width t).1

theorem reduce_zero (t : CType) : reduce t 0 = 0 := reduce_small t le_rfl (by decide)

theorem reduce_truth (t : CType) (p : Prop) [Decidable p] : reduce t (truth p) = truth p := by
  unfold truth
  split
  · exact reduce_small t (by decide) (by decide)
  · exact reduce_zero t

theorem truth_eq_zero (p : Prop) [Decidable p] : truth p = 0 ↔ ¬ p := by
  unfold truth
  split <;> simp_all

theorem truth_cases (p : Prop) [Decidable p] : truth p = 0 ∨ truth p = 1 := by
  unfold truth
  split
  · exact .inr rfl
  · exact .inl rfl

/-! ## The value in an unsigned long -/

theorem toInt_one_host : (1 : BitVec h.longBits).toInt = 1 := by
  have hwide := h.long_wide
  have hone : (1 : BitVec h.longBits).toNat = 1 := Nat.mod_eq_of_lt (Nat.one_lt_two_pow (by omega))
  have hpow : (2 : Nat) ^ 32 ≤ 2 ^ h.longBits := Nat.pow_le_pow_right (by decide) hwide
  rw [BitVec.toInt_eq_toNat_of_lt (by omega), hone]
  rfl

theorem toInt_truthValue (b : Bool) : (truthValue b : BitVec h.longBits).toInt = truth (b = true) := by
  cases b
  · exact BitVec.toInt_zero
  · exact toInt_one_host

theorem toNat_of_toInt_nonneg (hx : 0 ≤ v.toInt) : (v.toNat : Int) = v.toInt := by
  rw [BitVec.toInt_eq_toNat_of_msb (by simpa [BitVec.msb_eq_toInt] using hx)]

/-- Where it is not negative, a trimmed constant is the number in the unsigned long. -/
theorem trimmed_toNat (htrim : (makeConstant v t).Trimmed) (hx : 0 ≤ reduce t v.toInt) :
    (v.toNat : Int) = reduce t v.toInt := by
  unfold Node.Trimmed Node.hostValue Node.constValue at htrim
  rw [makeConstant_type, makeConstant_value] at htrim
  split at htrim
  · exact htrim
  · have hnonneg : 0 ≤ v.toInt := by
      rw [htrim]
      exact hx
    exact (toNat_of_toInt_nonneg hnonneg).trans htrim

theorem trimmed_signed (htrim : (makeConstant v t).Trimmed) (hsigned : isUnsigned t = false) :
    v.toInt = reduce t v.toInt := by
  unfold Node.Trimmed Node.hostValue Node.constValue at htrim
  rw [makeConstant_type, makeConstant_value, hsigned, if_neg Bool.false_ne_true] at htrim
  exact htrim

theorem trimmed_unsigned (htrim : (makeConstant v t).Trimmed) (hunsigned : isUnsigned t = true) :
    (v.toNat : Int) = reduce t v.toInt := by
  unfold Node.Trimmed Node.hostValue Node.constValue at htrim
  rw [makeConstant_type, makeConstant_value, hunsigned, if_pos rfl] at htrim
  exact htrim

theorem reduce_toNat (t : CType) (v : BitVec h.longBits) : reduce t v.toNat = reduce t v.toInt :=
  (reduce_eq_iff.mpr ((Format.toInt_modEq_toNat v).of_dvd (pow_dvd_pow 2 (width_le_host t)))).symm

/-! ## Operators -/

section
variable (hl : (format t).width ≤ (format lt).width) (hr : (format t).width ≤ (format rt).width)
include hl hr

theorem reduce_add : reduce t (v + w).toInt = reduce t (reduce lt v.toInt + reduce rt w.toInt) :=
  reduce_eq_iff.mpr ((Format.toInt_add_modEq v w (width_le_host t)).trans
    ((reduce_modEq hl _).symm.add (reduce_modEq hr _).symm))

theorem reduce_sub : reduce t (v - w).toInt = reduce t (reduce lt v.toInt - reduce rt w.toInt) :=
  reduce_eq_iff.mpr ((Format.toInt_sub_modEq v w (width_le_host t)).trans
    ((reduce_modEq hl _).symm.sub (reduce_modEq hr _).symm))

theorem reduce_mul : reduce t (v * w).toInt = reduce t (reduce lt v.toInt * reduce rt w.toInt) :=
  reduce_eq_iff.mpr ((Format.toInt_mul_modEq v w (width_le_host t)).trans
    ((reduce_modEq hl _).symm.mul (reduce_modEq hr _).symm))

theorem reduce_bitwise (op : {n : Nat} → BitVec n → BitVec n → BitVec n)
    (hop : ∀ {n k : Nat} (a b : BitVec n), (op a b).setWidth k = op (a.setWidth k) (b.setWidth k)) :
    reduce t (op v w).toInt = reduce t (bitwise (fun a b => op a b) (reduce lt v.toInt) (reduce rt w.toInt)) := by
  have hwidth := (format_width t).2
  refine reduce_eq_iff.mpr (Format.bitwise_modEq hop (width_le_host t) hwidth ?_ ?_)
  · exact (reduce_modEq hl _).symm.trans (Format.toInt_ofInt_modEq _ hwidth).symm
  · exact (reduce_modEq hr _).symm.trans (Format.toInt_ofInt_modEq _ hwidth).symm

end

theorem reduce_div (hx : (v.toNat : Int) = x) (hy : (w.toNat : Int) = y) :
    reduce t (v / w).toInt = reduce t (x.tdiv y) := by
  rw [← reduce_toNat, BitVec.toNat_udiv, ← hx, ← hy]
  rfl

theorem reduce_mod (hx : (v.toNat : Int) = x) (hy : (w.toNat : Int) = y) :
    reduce t (v % w).toInt = reduce t (x.tmod y) := by
  rw [← reduce_toNat, BitVec.toNat_umod, ← hx, ← hy]
  rfl

theorem reduce_shiftLeft (hx : reduce t v.toInt = reduce t x) (hy : (w.toNat : Int) = y) :
    reduce t (v <<< w).toInt = reduce t (x * 2 ^ y.toNat) := by
  have hleft := reduce_eq_iff.mp hx.symm
  rw [BitVec.shiftLeft_eq', ← hy, Int.toNat_natCast]
  refine reduce_eq_iff.mpr (Int.ModEq.trans ?_ (hleft.symm.mul_right _))
  rw [BitVec.toInt_shiftLeft]
  refine (Format.bmod_modEq _ (width_le_host t)).trans ?_
  rw [Nat.shiftLeft_eq, Nat.cast_mul, Nat.cast_pow, Nat.cast_ofNat]
  exact ((Format.toInt_modEq_toNat v).of_dvd (pow_dvd_pow 2 (width_le_host t))).symm.mul_right _

theorem reduce_shiftRight_unsigned (hx : (v.toNat : Int) = x) (hy : (w.toNat : Int) = y) :
    reduce t (v >>> w).toInt = reduce t (x / 2 ^ y.toNat) := by
  rw [← reduce_toNat, BitVec.ushiftRight_eq', BitVec.toNat_ushiftRight, Nat.shiftRight_eq_div_pow, ← hx, ← hy]
  push_cast
  rfl

theorem reduce_shiftRight_signed (hx : v.toInt = x) (hy : (w.toNat : Int) = y) :
    reduce t (v.sshiftRight' w).toInt = reduce t (x / 2 ^ y.toNat) := by
  rw [BitVec.sshiftRight_eq', BitVec.toInt_sshiftRight, Int.shiftRight_eq_div_pow, hx, ← hy]
  push_cast
  rfl

/-- The compare of two trimmed constants of one type. -/
theorem compare_trimmed (hv : (makeConstant v t).Trimmed) (hw : (makeConstant w t).Trimmed) :
    ((if isUnsigned t then v.ult w else v.slt w) = true ↔ reduce t v.toInt < reduce t w.toInt) ∧
      ((if isUnsigned t then v.ule w else v.sle w) = true ↔ reduce t v.toInt ≤ reduce t w.toInt) := by
  cases hsign : isUnsigned t with
  | true =>
    rw [← trimmed_unsigned hv hsign, ← trimmed_unsigned hw hsign, if_pos rfl, if_pos rfl, BitVec.ult_iff_toNat_lt,
      BitVec.ule_iff_toNat_le]
    exact ⟨Nat.cast_lt.symm, Nat.cast_le.symm⟩
  | false =>
    rw [← trimmed_signed hv hsign, ← trimmed_signed hw hsign, if_neg Bool.false_ne_true, if_neg Bool.false_ne_true,
      BitVec.slt_iff_toInt_lt, BitVec.sle_iff_toInt_le]
    exact ⟨Iff.rfl, Iff.rfl⟩

theorem truthValue_congr {b : Bool} {p : Prop} [Decidable p] (hb : b = true ↔ p) :
    (truthValue b : BitVec h.longBits).toInt = truth p := by
  rw [toInt_truthValue]
  unfold truth
  split <;> split <;> simp_all

/-- The types of two constants under an operator of type `t`. -/
def OpTyped (op : Op) (l : Node h) (rt t : CType) : Prop :=
  if op = .LTLT ∨ op = .GTGT then (format t).width ≤ (format l.type).width ∨ l.Trimmed
  else (format t).width ≤ (format l.type).width ∧ (format t).width ≤ (format rt).width ∧ (op ∈ compareOps → l.type = rt)

theorem trimmed_toInt (htrim : (makeConstant v lt).Trimmed) : reduce t v.toInt = reduce t (reduce lt v.toInt) := by
  cases hsign : isUnsigned lt with
  | true => rw [← trimmed_unsigned htrim hsign, reduce_toNat]
  | false => rw [← trimmed_signed htrim hsign]

/-- The fold of two constants that fit is what the target computes. -/
theorem binaryValue_right {op : Op} (hop : op ∈ arithOps) (htyped : OpTyped op (makeConstant v lt) rt t)
    (hfits : OpFits op (makeConstant v lt) (makeConstant w rt)) (hone : op = .SLASH → w ≠ 1)
    (hz : arith op t (reduce lt v.toInt) (reduce rt w.toInt) = some z) :
    ∃ value, binaryValue op lt v w = some value ∧ reduce t value.toInt = reduce t z := by
  simp only [arithOps, binaryOps, compareOps, List.cons_append, List.nil_append, List.mem_cons, List.not_mem_nil,
    or_false] at hop
  have hdiv (hfits : (makeConstant v lt).Trimmed ∧ (makeConstant w rt).Trimmed ∧ 0 ≤ (makeConstant v lt).constValue ∧
      0 ≤ (makeConstant w rt).constValue) :
      (v.toNat : Int) = reduce lt v.toInt ∧ (w.toNat : Int) = reduce rt w.toInt :=
    ⟨trimmed_toNat hfits.1 hfits.2.2.1, trimmed_toNat hfits.2.1 hfits.2.2.2⟩
  have hzero (hy : (w.toNat : Int) = reduce rt w.toInt) (hne : reduce rt w.toInt ≠ 0) : w ≠ 0 := by
    rintro rfl
    rw [← hy] at hne
    simp at hne
  rcases hop with rfl | rfl | rfl | rfl | rfl | rfl | rfl | rfl | rfl | rfl | rfl | rfl | rfl | rfl
  · obtain ⟨hl, hr, -⟩ := htyped
    cases hz
    exact ⟨v + w, rfl, reduce_add hl hr⟩
  · obtain ⟨hl, hr, -⟩ := htyped
    cases hz
    exact ⟨v - w, rfl, reduce_sub hl hr⟩
  · obtain ⟨hl, hr, -⟩ := htyped
    cases hz
    exact ⟨v * w, rfl, reduce_mul hl hr⟩
  · obtain ⟨hx, hy⟩ := hdiv (hfits.resolve_left (hone rfl))
    rw [arith] at hz
    split at hz
    · cases hz
    · next hne =>
      cases hz
      exact ⟨v / w, if_neg (hzero hy hne), reduce_div hx hy⟩
  · obtain ⟨hx, hy⟩ := hdiv hfits
    rw [arith] at hz
    split at hz
    · cases hz
    · next hne =>
      cases hz
      exact ⟨v % w, if_neg (hzero hy hne), reduce_mod hx hy⟩
  · obtain ⟨hl, hr, -⟩ := htyped
    cases hz
    exact ⟨v &&& w, rfl, reduce_bitwise hl hr (fun a b => a &&& b) fun _ _ => BitVec.setWidth_and⟩
  · obtain ⟨hl, hr, -⟩ := htyped
    cases hz
    exact ⟨v ||| w, rfl, reduce_bitwise hl hr (fun a b => a ||| b) fun _ _ => BitVec.setWidth_or⟩
  · obtain ⟨hl, hr, -⟩ := htyped
    cases hz
    exact ⟨v ^^^ w, rfl, reduce_bitwise hl hr (fun a b => a ^^^ b) fun _ _ => BitVec.setWidth_xor⟩
  · rw [arith] at hz
    split at hz
    · next hrange =>
      cases hz
      have hl : (format t).width ≤ (format lt).width ∨ (makeConstant v lt).Trimmed := htyped
      have hx : reduce t v.toInt = reduce t (reduce lt v.toInt) :=
        hl.elim (fun hle => (reduce_reduce_of_le hle _).symm) trimmed_toInt
      have hy : (w.toNat : Int) = reduce rt w.toInt := trimmed_toNat hfits hrange.1
      exact ⟨v <<< w, rfl, reduce_shiftLeft hx hy⟩
    · cases hz
  · rw [arith] at hz
    split at hz
    · next hrange =>
      cases hz
      have hy : (w.toNat : Int) = reduce rt w.toInt := trimmed_toNat hfits.2 hrange.1
      refine ⟨_, rfl, ?_⟩
      cases hsign : isUnsigned lt with
      | true => exact reduce_shiftRight_unsigned (trimmed_unsigned hfits.1 hsign) hy
      | false => exact reduce_shiftRight_signed (trimmed_signed hfits.1 hsign) hy
    · cases hz
  · obtain rfl : lt = rt := htyped.2.2 (by decide)
    cases hz
    exact ⟨_, rfl, congrArg (reduce t) (truthValue_congr (compare_trimmed hfits.1 hfits.2).1)⟩
  · obtain rfl : lt = rt := htyped.2.2 (by decide)
    cases hz
    exact ⟨_, rfl, congrArg (reduce t) (truthValue_congr (compare_trimmed hfits.1 hfits.2).2)⟩
  · obtain rfl : lt = rt := htyped.2.2 (by decide)
    cases hz
    exact ⟨_, rfl, congrArg (reduce t) (truthValue_congr (compare_trimmed hfits.2 hfits.1).1)⟩
  · obtain rfl : lt = rt := htyped.2.2 (by decide)
    cases hz
    exact ⟨_, rfl, congrArg (reduce t) (truthValue_congr (compare_trimmed hfits.2 hfits.1).2)⟩

end Fuzemsys.Fcc.Tree
