import Fuzemsys.Fcc.NumberEnds

/-!
# convert_fix32 on numbers

A mantissa of 28 bits with its binary exponent, what each loop does to it, and the pattern that it is
assembled to.
-/

open Fuzemsys.Lib

namespace Fuzemsys.Fcc

/-! ## Mantissas -/

structure Scaled where
  exp : Int
  mant : Nat
  deriving DecidableEq

namespace Scaled

def Normal (x : Scaled) : Prop := 2 ^ 27 ≤ x.mant ∧ x.mant < 2 ^ 28

def timesTen (x : Scaled) : Scaled :=
  if x.mant * 10 < 2 ^ 31 then ⟨x.exp + 3, x.mant * 10 / 8⟩ else ⟨x.exp + 4, x.mant * 10 / 16⟩

def overTen (x : Scaled) : Scaled :=
  if x.mant / 10 < 2 ^ 24 then ⟨x.exp - 4, x.mant / 10 * 16⟩ else ⟨x.exp - 3, x.mant / 10 * 8⟩

def scale (power : Int) (x : Scaled) : Scaled := overTen^[(-power).toNat] (timesTen^[power.toNat] x)

/-- The sign is left out. -/
def encode (x : Scaled) : Nat :=
  if x.exp + 154 < 1 then 0
  else if 254 < x.exp + 154 then 0x7F800000
  else (x.exp + 154).toNat * 2 ^ 23 + (x.mant / 16 - 2 ^ 23)

/-- The upper 28 bits of a 32.32 fixed point value that is not zero. -/
def ofFixed (v : Nat) : Scaled := ⟨Nat.log2 v - 59, v * 2 ^ (59 - Nat.log2 v) / 2 ^ 32⟩

variable {x : Scaled}

theorem timesTen_normal (hx : x.Normal) : x.timesTen.Normal := by
  unfold Normal timesTen at *
  split <;> dsimp only <;> omega

theorem ofFixed_normal {v : Nat} (hv : v ≠ 0) (hlt : v < 2 ^ 60) :
    (ofFixed v).Normal ∧ 2 ^ 59 ≤ v * 2 ^ (59 - Nat.log2 v) ∧ v * 2 ^ (59 - Nat.log2 v) < 2 ^ 60 := by
  have hlog : Nat.log2 v ≤ 59 := Nat.lt_succ_iff.mp ((Nat.log2_lt hv).mpr hlt)
  have hlow : 2 ^ 59 ≤ v * 2 ^ (59 - Nat.log2 v) := by
    calc 2 ^ 59 = 2 ^ Nat.log2 v * 2 ^ (59 - Nat.log2 v) := by rw [← Nat.pow_add]; congr 1; omega
      _ ≤ v * 2 ^ (59 - Nat.log2 v) := Nat.mul_le_mul_right _ (Nat.log2_self_le hv)
  have hhigh : v * 2 ^ (59 - Nat.log2 v) < 2 ^ 60 := by
    calc v * 2 ^ (59 - Nat.log2 v) < 2 ^ (Nat.log2 v + 1) * 2 ^ (59 - Nat.log2 v) :=
          Nat.mul_lt_mul_of_pos_right Nat.lt_log2_self (Nat.two_pow_pos _)
      _ = 2 ^ 60 := by rw [← Nat.pow_add]; congr 1; omega
  refine ⟨?_, hlow, hhigh⟩
  unfold Normal ofFixed
  dsimp only
  omega

end Scaled

/-! ## The loops -/

variable {h : Host} {n i k fuel : Nat} {exp : BitVec n} {sum frac : BitVec 32} {x : Scaled}

def fixed (sum frac : BitVec 32) : Nat := sum.toNat * 2 ^ 32 + frac.toNat

/-- The variables that hold a mantissa. -/
structure Holds (x : Scaled) (exp : BitVec n) (sum : BitVec 32) : Prop where
  exp_eq : exp = BitVec.ofInt n x.exp
  sum_eq : sum.toNat = x.mant

/-- The decimal exponent leaves the binary one within an `int`. -/
def InRange (h : Host) (power : Int) : Prop := 4 * power.natAbs + 256 < 2 ^ (h.intBits - 1)

end Fuzemsys.Fcc
