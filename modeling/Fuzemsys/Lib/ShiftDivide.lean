import Mathlib.Data.BitVec

/-!
# Division by shifts and subtractions

The dividend is shifted out at the top of a register while the quotient is shifted in at the
bottom.
-/

open BitVec (DivModState DivModArgs divSubtractShift lawful_divSubtractShift)

namespace Fuzemsys.Lib

variable {w k : Nat} {n d x r : BitVec w}

/-- `k` bits are left of the dividend. The register is `x` and the remainder `r`. -/
def Divides (n d : BitVec w) (k : Nat) (x r : BitVec w) : Prop :=
  ∃ qr : DivModState w, qr.Lawful ⟨n, d⟩ ∧ qr.wn = k ∧ r = qr.r ∧ x = n <<< qr.wr ||| qr.q

theorem divides_start (n : BitVec w) (hd : 0 < d) : Divides n d w n 0 := by
  refine ⟨DivModState.init w, DivModState.lawful_init ⟨n, d⟩ hd, rfl, rfl, ?_⟩
  unfold DivModState.init
  simp

theorem Divides.ends (h : Divides n d 0 x r) : x = n / d ∧ r = n % d := by
  obtain ⟨qr, hlawful, hwn, rfl, rfl⟩ := h
  have hwr : qr.wr = w := by
    have hsum := hlawful.hwrn
    rw [hwn, Nat.add_zero] at hsum
    exact hsum
  refine ⟨?_, (DivModState.umod_eq_of_lawful hlawful hwn).symm⟩
  rw [DivModState.udiv_eq_of_lawful hlawful hwn, hwr, BitVec.shiftLeft_eq_zero (Nat.le_refl w), BitVec.zero_or]

/-- The bit that comes out at the top. -/
theorem msb_register {qr : DivModState w} (h : qr.Poised ⟨n, d⟩) :
    (n <<< qr.wr ||| qr.q).msb = n.getLsbD (qr.wn - 1) := by
  have hwrn := h.hwrn
  have hwn := h.hwn_lt
  have hq : qr.q.getLsbD (w - 1) = false := by
    have hlt := Nat.lt_of_lt_of_le h.hqWidth (Nat.pow_le_pow_right Nat.two_pos (show qr.wr ≤ w - 1 by omega))
    rw [BitVec.getLsbD, Nat.testBit_lt_two_pow hlt]
  rw [BitVec.msb_eq_getLsbD_last, BitVec.getLsbD_or, BitVec.getLsbD_shiftLeft, hq]
  have hat : w - 1 - qr.wr = qr.wn - 1 := by omega
  have hlt : w - 1 < w := by omega
  have hle : ¬w - 1 < qr.wr := by omega
  simp [hat, hlt, hle]

theorem shiftConcat_register (n q : BitVec w) (m : Nat) (b : Bool) :
    (n <<< m ||| q).shiftConcat b = n <<< (m + 1) ||| q.shiftConcat b := by
  apply BitVec.eq_of_getLsbD_eq
  intro i hi
  simp only [BitVec.getLsbD_shiftConcat, BitVec.getLsbD_or, BitVec.getLsbD_shiftLeft]
  cases i with
  | zero => simp [hi]
  | succ i =>
    have hi' : i < w := Nat.lt_of_succ_lt hi
    simp [hi, hi', Nat.add_sub_add_right]

/-- A turn that does not subtract. -/
theorem Divides.keep (h : Divides n d (k + 1) x r) (hlt : r.shiftConcat x.msb < d) :
    Divides n d k (x.shiftConcat false) (r.shiftConcat x.msb) := by
  obtain ⟨qr, hlawful, hwn, rfl, rfl⟩ := h
  have hpoised : qr.Poised ⟨n, d⟩ := ⟨hlawful, by omega⟩
  have hnext := lawful_divSubtractShift qr hpoised
  rw [msb_register hpoised] at hlt ⊢
  unfold divSubtractShift at hnext
  simp only [hlt, if_true] at hnext
  exact ⟨_, hnext, by simp [hwn], rfl, shiftConcat_register n qr.q qr.wr false⟩

/-- A turn that subtracts, and puts a bit of the quotient in. -/
theorem Divides.subtract (h : Divides n d (k + 1) x r) (hle : ¬r.shiftConcat x.msb < d) :
    Divides n d k (x.shiftConcat true) (r.shiftConcat x.msb - d) := by
  obtain ⟨qr, hlawful, hwn, rfl, rfl⟩ := h
  have hpoised : qr.Poised ⟨n, d⟩ := ⟨hlawful, by omega⟩
  have hnext := lawful_divSubtractShift qr hpoised
  rw [msb_register hpoised] at hle ⊢
  unfold divSubtractShift at hnext
  simp only [hle, if_false] at hnext
  exact ⟨_, hnext, by simp [hwn], rfl, shiftConcat_register n qr.q qr.wr true⟩

end Fuzemsys.Lib
