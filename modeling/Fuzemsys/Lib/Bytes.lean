import Mathlib.Data.BitVec

/-!
# Little endian bytes

A number is cut into bytes by shifts to the right, and put together again by shifts
to the left in a word that may be narrower.
-/

namespace Fuzemsys.Lib

/-- Two bytes give the low 16 bits. -/
theorem word_of_two_bytes {m : Nat} (v : BitVec m) (n : Nat) :
    (v.setWidth 8).setWidth n ||| ((v >>> 8).setWidth 8).setWidth n <<< 8 = (v.setWidth 16).setWidth n := by
  apply BitVec.eq_of_getLsbD_eq
  intro i hi
  simp only [BitVec.getLsbD_or, BitVec.getLsbD_shiftLeft, BitVec.getLsbD_setWidth,
    BitVec.getLsbD_ushiftRight, hi, decide_true, Bool.true_and]
  by_cases h8 : i < 8
  · simp [h8, show i < 16 by omega]
  · by_cases h16 : i < 16
    · have hback : 8 + (i - 8) = i := by omega
      simp [h8, h16, show i - 8 < 8 by omega, show i - 8 < n by omega, hback]
    · simp [h8, h16, show ¬ i - 8 < 8 by omega]

/-- Four bytes give the low 32 bits. -/
theorem word_of_four_bytes {m : Nat} (v : BitVec m) (n : Nat) :
    (v.setWidth 8).setWidth n ||| ((v >>> 8).setWidth 8).setWidth n <<< 8 |||
      ((v >>> 16).setWidth 8).setWidth n <<< 16 ||| ((v >>> 24).setWidth 8).setWidth n <<< 24 =
      (v.setWidth 32).setWidth n := by
  apply BitVec.eq_of_getLsbD_eq
  intro i hi
  simp only [BitVec.getLsbD_or, BitVec.getLsbD_shiftLeft, BitVec.getLsbD_setWidth,
    BitVec.getLsbD_ushiftRight, hi, decide_true, Bool.true_and]
  by_cases h8 : i < 8
  · simp [h8, show i < 16 by omega, show i < 24 by omega, show i < 32 by omega]
  · by_cases h16 : i < 16
    · have hback : 8 + (i - 8) = i := by omega
      simp [h8, h16, show i < 24 by omega, show i < 32 by omega, show i - 8 < 8 by omega,
        show i - 8 < n by omega, hback]
    · by_cases h24 : i < 24
      · have hback : 16 + (i - 16) = i := by omega
        simp [h8, h16, h24, show i < 32 by omega, show ¬ i - 8 < 8 by omega, show i - 16 < 8 by omega,
          show i - 16 < n by omega, hback]
      · by_cases h32 : i < 32
        · have hback : 24 + (i - 24) = i := by omega
          simp [h8, h16, h24, h32, show ¬ i - 8 < 8 by omega, show ¬ i - 16 < 8 by omega,
            show i - 24 < 8 by omega, show i - 24 < n by omega, hback]
        · simp [h8, h16, h24, h32, show ¬ i - 8 < 8 by omega, show ¬ i - 16 < 8 by omega,
            show ¬ i - 24 < 8 by omega]

end Fuzemsys.Lib
