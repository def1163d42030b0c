import Fuzemsys.Fcc.RuntimeLongs

/-!
# The difference and the product of longs

The right operand is taken a byte at a time. The sum is added up below the return address, and it may be left before
all bytes are taken.
-/

open Fuzemsys.Lib

namespace Fuzemsys.Fcc.Runtime

open Code6800 (hiByte loByte carryBit append_toNat hiByte_toNat loByte_toNat carryBit_toNat hiByte_append loByte_append)

variable {im : Linked} {a : BitVec 16} {s : State}

/-! ## The difference -/

/-- `__minusl` takes the return address for the upper word of the left operand and the upper word for the lower one. It
jumps to the lower word. -/
theorem minusl_leaves (hcode : im.Holds a minusl) (r : BitVec 16) :
    mc6809.LeavesAt im minusl ⟨.__minusl, .__minusl⟩ (s.push r) fun a' s' =>
      a' = s.mem (s.s + 2#16) ++ s.mem (s.s + 3#16) ∧ s'.y ++ s'.d = (r ++ leftWord s) - rightLong s := by
  apply Processor.leaves_wp hcode rfl Processor.asserts_none 30 rfl
  obtain ⟨⟨⟨a, b, x, y, c⟩, t, mem, g, z, v⟩, p⟩ := s
  simp [minusl, Image.behind, Processor.wp, BitVec.add_assoc]
  rw [(sbc_word r (hiByte y) (loByte y) _).1, Code6800.hi_append_lo, (sub_long r _ y _).1]
  rfl

/-! ## Products of bytes -/

/-- The product of two bytes. -/
def times (x y : Byte) : BitVec 16 := x.setWidth 16 * y.setWidth 16

theorem times_toNat (x y : Byte) : (times x y).toNat = x.toNat * y.toNat := mul_toNat x y

theorem long_toNat (b₃ b₂ b₁ b₀ : Byte) :
    ((b₃ ++ b₂) ++ (b₁ ++ b₀)).toNat = (b₃.toNat * 256 + b₂.toNat) * 65536 + (b₁.toNat * 256 + b₀.toNat) := by
  rw [append_toNat, append_toNat, append_toNat]
  rfl

theorem times_le (x y : Byte) : (times x y).toNat ≤ 65025 := by
  rw [times_toNat]
  exact Nat.mul_le_mul (Nat.le_of_lt_succ x.isLt) (Nat.le_of_lt_succ y.isLt)

/-- What a product counts for. -/
def weighed (k : Nat) (q : BitVec 16) : BitVec 32 := BitVec.ofNat 32 (k * q.toNat)

section
variable (h l : Byte) (p q u v w : BitVec 16)

/-- The upper byte of a product that is added to two bytes. -/
def upper : Byte := hiByte q + h + carryBit (decide (256 ≤ (loByte q).toNat + l.toNat + (carryBit false).toNat))

theorem addb_adca : upper h l q ++ (loByte q + l) = q + (h ++ l) := by
  have hq := q.isLt
  have hh := h.isLt
  have hl := l.isLt
  apply BitVec.eq_of_toNat_eq
  rw [append_toNat]
  unfold upper
  simp only [BitVec.toNat_add, hiByte_toNat, loByte_toNat, carryBit_toNat, append_toNat, decide_eq_true_eq,
    Bool.false_eq_true, if_false]
  split <;> omega

/-- In the two bytes at the top. -/
theorem add_high : (q + u) ++ w = (u ++ w) + weighed 65536 q := by
  have hq := q.isLt
  have hu := u.isLt
  have hw := w.isLt
  apply BitVec.eq_of_toNat_eq
  unfold weighed
  rw [append_toNat, BitVec.toNat_add, BitVec.toNat_add, append_toNat, BitVec.toNat_ofNat]
  simp only [Nat.reducePow]
  generalize q.toNat = q at hq ⊢
  generalize u.toNat = u at hu ⊢
  generalize w.toNat = w at hw ⊢
  omega

/-- In the byte at the top, where the rest is lost. -/
theorem add_top : ((loByte q + h) ++ l) ++ w = ((h ++ l) ++ w) + weighed 16777216 q := by
  have hq := q.isLt
  have hw := w.isLt
  have hh := h.isLt
  have hl := l.isLt
  apply BitVec.eq_of_toNat_eq
  unfold weighed
  simp only [append_toNat, BitVec.toNat_add, BitVec.toNat_ofNat, loByte_toNat, Nat.reducePow]
  generalize q.toNat = q at hq ⊢
  generalize w.toNat = w at hw ⊢
  generalize h.toNat = h at hh ⊢
  generalize l.toNat = l at hl ⊢
  omega

/-- A product in the two bytes at the top and then another one. -/
theorem add_both (q' : BitVec 16) : ((loByte q' + upper h l q) ++ (loByte q + l)) ++ w =
    ((h ++ l) ++ w) + weighed 65536 q + weighed 16777216 q' := by
  rw [add_top, addb_adca, add_high]

/-- The carry out of two bytes. -/
theorem adca_carry :
    (hiByte q).toNat + h.toNat +
      (carryBit (decide (256 ≤ (loByte q).toNat + l.toNat + (carryBit false).toNat))).toNat < 256 ↔
        q.toNat + (h ++ l).toNat < 65536 := by
  have hq := q.isLt
  have hh := h.isLt
  have hl := l.isLt
  simp only [hiByte_toNat, loByte_toNat, carryBit_toNat, append_toNat, decide_eq_true_eq, Bool.false_eq_true, if_false]
  split <;> omega

theorem middle_sum {h hi lo l q m₁ m₂ : Nat} (hadd : lo + hi * 256 = (q + (m₂ + m₁ * 256)) % 65536) (hq : q < 65536)
    (hh : h < 256) (hl : l < 256) (hlo : lo < 256) (h₁ : m₁ < 256) (h₂ : m₂ < 256) :
    ((h + if 65536 ≤ q + (m₂ + m₁ * 256) then 1 else 0) % 256 * 256 + hi) * 65536 + (lo * 256 + l) =
      ((h * 256 + m₁) * 65536 + (m₂ * 256 + l) + 256 * q % 4294967296) % 4294967296 := by
  rw [Nat.mod_eq_of_lt (show 256 * q < 4294967296 by omega)]
  split
  · next hc =>
    have hsum : 65536 + (lo + hi * 256) = q + (m₂ + m₁ * 256) := by omega
    omega
  · next hc =>
    have hsum : lo + hi * 256 = q + (m₂ + m₁ * 256) := by omega
    rw [Nat.add_zero, Nat.mod_eq_of_lt hh]
    omega

/-- In the bytes in the middle, which carry into the byte at the top. -/
theorem add_middle (m₁ m₂ : Byte) :
    ((h + carryBit (decide (65536 ≤ q.toNat + (m₁ ++ m₂).toNat))) ++ upper m₁ m₂ q) ++ ((loByte q + m₂) ++ l) =
      ((h ++ m₁) ++ (m₂ ++ l)) + weighed 256 q := by
  have hsplit : (m₁ ++ m₂).toNat = m₂.toNat + m₁.toNat * 256 := by
    rw [append_toNat, Nat.add_comm]
    rfl
  have hadd := congrArg BitVec.toNat (addb_adca m₁ m₂ q)
  rw [append_toNat, BitVec.toNat_add q, hsplit, Nat.add_comm] at hadd
  apply BitVec.eq_of_toNat_eq
  unfold weighed
  rw [BitVec.toNat_add, long_toNat, long_toNat, BitVec.toNat_add h, carryBit_toNat, BitVec.toNat_ofNat, hsplit]
  simp only [decide_eq_true_eq]
  exact middle_sum hadd q.isLt h.isLt l.isLt (loByte q + m₂).isLt m₁.isLt m₂.isLt

theorem upper_eq : upper h l q = hiByte (q + (h ++ l)) := by
  rw [← addb_adca]
  exact (hiByte_append _ _).symm

theorem lower_eq : loByte q + l = loByte (q + (h ++ l)) := by
  rw [← addb_adca]
  exact (loByte_append _ _).symm

/-- The first row, a byte of the left operand after the other. -/
theorem first_row (hp : p.toNat ≤ 65025) (hq : q.toNat ≤ 65025) :
    ((loByte v + upper 0#8 (upper 0#8 (hiByte p) q) u) ++ (loByte u + upper 0#8 (hiByte p) q)) ++
        ((loByte q + hiByte p) ++ loByte p) =
      weighed 1 p + weighed 256 q + weighed 65536 u + weighed 16777216 v := by
  have hu := u.isLt
  have hv := v.isLt
  rw [lower_eq 0#8 (upper 0#8 (hiByte p) q), lower_eq 0#8 (hiByte p), upper_eq, upper_eq]
  apply BitVec.eq_of_toNat_eq
  unfold weighed
  simp only [append_toNat, BitVec.toNat_add, BitVec.toNat_ofNat, loByte_toNat, hiByte_toNat, Nat.reducePow,
    Nat.zero_mul, Nat.zero_add, Nat.zero_mod, Nat.one_mul]
  generalize p.toNat = p at hp ⊢
  generalize q.toNat = q at hq ⊢
  generalize u.toNat = u at hu ⊢
  generalize v.toNat = v at hv ⊢
  omega

theorem top_zero : ((h ++ l) ++ w : BitVec 32) < 16777216#32 ↔ h = 0#8 := by
  have hw := w.isLt
  have hl := l.isLt
  rw [BitVec.lt_def, append_toNat, append_toNat, ← BitVec.toNat_inj]
  simp only [BitVec.toNat_ofNat, Nat.reducePow, Nat.reduceMod]
  omega

end

/-! ## Partial products -/

section
variable (l₃ l₂ l₁ l₀ yh yl a b : Byte)

/-- With the low word of the right operand. -/
theorem product_low :
    weighed 1 (times l₀ b) + weighed 256 (times l₁ b) + weighed 65536 (times l₂ b) + weighed 16777216 (times l₃ b) +
        weighed 256 (times l₀ a) + weighed 65536 (times l₁ a) + weighed 16777216 (times l₂ a) =
      ((l₃ ++ l₂) ++ (l₁ ++ l₀)) * (((yh ++ yl) ++ (a ++ b)) % 65536#32) := by
  have ha := a.isLt
  have hb := b.isLt
  have hmod : ((yh.toNat * 256 + yl.toNat) * 65536 + (a.toNat * 256 + b.toNat)) % 65536 = 256 * a.toNat + b.toNat := by
    omega
  have hprod : ((l₃.toNat * 256 + l₂.toNat) * 65536 + (l₁.toNat * 256 + l₀.toNat)) * (256 * a.toNat + b.toNat) =
      l₀.toNat * b.toNat + 256 * (l₁.toNat * b.toNat) + 65536 * (l₂.toNat * b.toNat) + 16777216 * (l₃.toNat * b.toNat) +
        256 * (l₀.toNat * a.toNat) + 65536 * (l₁.toNat * a.toNat) + 16777216 * (l₂.toNat * a.toNat) +
        4294967296 * (l₃.toNat * a.toNat) := by ring
  apply BitVec.eq_of_toNat_eq
  rw [BitVec.toNat_mul, BitVec.toNat_umod, long_toNat, long_toNat]
  simp only [weighed, BitVec.toNat_add, BitVec.toNat_ofNat, times_toNat, Nat.reducePow, Nat.reduceMod,
    Nat.one_mul]
  rw [hmod, hprod]
  omega

/-- With the next byte as well. -/
theorem product_next :
    ((l₃ ++ l₂) ++ (l₁ ++ l₀)) * (((yh ++ yl) ++ (a ++ b)) % 65536#32) + weighed 65536 (times l₀ yl) +
        weighed 16777216 (times l₁ yl) =
      ((l₃ ++ l₂) ++ (l₁ ++ l₀)) * (((yh ++ yl) ++ (a ++ b)) % 16777216#32) := by
  have ha := a.isLt
  have hb := b.isLt
  have hyl := yl.isLt
  have hmod : ((yh.toNat * 256 + yl.toNat) * 65536 + (a.toNat * 256 + b.toNat)) % 65536 = 256 * a.toNat + b.toNat := by
    omega
  have hmod' : ((yh.toNat * 256 + yl.toNat) * 65536 + (a.toNat * 256 + b.toNat)) % 16777216 =
      65536 * yl.toNat + (256 * a.toNat + b.toNat) := by omega
  have hprod : ((l₃.toNat * 256 + l₂.toNat) * 65536 + (l₁.toNat * 256 + l₀.toNat)) *
      (65536 * yl.toNat + (256 * a.toNat + b.toNat)) =
        ((l₃.toNat * 256 + l₂.toNat) * 65536 + (l₁.toNat * 256 + l₀.toNat)) * (256 * a.toNat + b.toNat) +
        65536 * (l₀.toNat * yl.toNat) + 16777216 * (l₁.toNat * yl.toNat) +
        4294967296 * (l₂.toNat * yl.toNat + 256 * (l₃.toNat * yl.toNat)) := by ring
  apply BitVec.eq_of_toNat_eq
  rw [BitVec.toNat_add, BitVec.toNat_add, BitVec.toNat_mul, BitVec.toNat_mul, BitVec.toNat_umod, BitVec.toNat_umod,
    long_toNat, long_toNat]
  simp only [weighed, BitVec.toNat_ofNat, times_toNat, Nat.reduceAdd, Nat.reducePow, Nat.reduceMod]
  rw [hmod, hmod', hprod]
  generalize ((l₃.toNat * 256 + l₂.toNat) * 65536 + (l₁.toNat * 256 + l₀.toNat)) * (256 * a.toNat + b.toNat) = low
  omega

/-- With all of it. -/
theorem product_last :
    ((l₃ ++ l₂) ++ (l₁ ++ l₀)) * (((yh ++ yl) ++ (a ++ b)) % 16777216#32) + weighed 16777216 (times yh l₀) =
      ((l₃ ++ l₂) ++ (l₁ ++ l₀)) * ((yh ++ yl) ++ (a ++ b)) := by
  have ha := a.isLt
  have hb := b.isLt
  have hyl := yl.isLt
  have hmod : ((yh.toNat * 256 + yl.toNat) * 65536 + (a.toNat * 256 + b.toNat)) % 16777216 =
      65536 * yl.toNat + (256 * a.toNat + b.toNat) := by omega
  have hsum : (yh.toNat * 256 + yl.toNat) * 65536 + (a.toNat * 256 + b.toNat) =
      16777216 * yh.toNat + (65536 * yl.toNat + (256 * a.toNat + b.toNat)) := by ring
  have hprod : ((l₃.toNat * 256 + l₂.toNat) * 65536 + (l₁.toNat * 256 + l₀.toNat)) *
      (16777216 * yh.toNat + (65536 * yl.toNat + (256 * a.toNat + b.toNat))) =
        ((l₃.toNat * 256 + l₂.toNat) * 65536 + (l₁.toNat * 256 + l₀.toNat)) *
          (65536 * yl.toNat + (256 * a.toNat + b.toNat)) +
        16777216 * (yh.toNat * l₀.toNat) + 4294967296 * (l₁.toNat * yh.toNat + 256 * (l₂.toNat * yh.toNat) +
          65536 * (l₃.toNat * yh.toNat)) := by ring
  apply BitVec.eq_of_toNat_eq
  rw [BitVec.toNat_add, BitVec.toNat_mul, BitVec.toNat_mul, BitVec.toNat_umod, long_toNat, long_toNat]
  simp only [weighed, BitVec.toNat_ofNat, times_toNat, Nat.reduceAdd, Nat.reducePow, Nat.reduceMod]
  rw [hmod, hsum, hprod]
  generalize ((l₃.toNat * 256 + l₂.toNat) * 65536 + (l₁.toNat * 256 + l₀.toNat)) *
    (65536 * yl.toNat + (256 * a.toNat + b.toNat)) = low
  omega

end

/-- What the routine makes of two longs. It leaves off as soon as the byte at the top of its sum is zero. -/
def multiplied (x y : BitVec 32) : BitVec 32 :=
  if x * (y % 65536#32) < 16777216#32 then x * (y % 65536#32)
  else if x * (y % 16777216#32) < 16777216#32 then x * (y % 16777216#32)
  else x * y

section
variable {x y : BitVec 32}

theorem multiplied_low (h : x * (y % 65536#32) < 16777216#32) : multiplied x y = x * (y % 65536#32) := if_pos h

theorem multiplied_next (h : ¬x * (y % 65536#32) < 16777216#32) (h' : x * (y % 16777216#32) < 16777216#32) :
    multiplied x y = x * (y % 16777216#32) := by
  unfold multiplied
  rw [if_neg h, if_pos h']

theorem multiplied_last (h : ¬x * (y % 65536#32) < 16777216#32) (h' : ¬x * (y % 16777216#32) < 16777216#32) :
    multiplied x y = x * y := by
  unfold multiplied
  rw [if_neg h, if_neg h']

end

/-- Nothing is missing from the sum that is left. -/
def ProductRight (x y : BitVec 32) : Prop :=
  if x * (y % 65536#32) < 16777216#32 then x.toNat * (y.toNat / 65536) % 65536 = 0
  else x * (y % 16777216#32) < 16777216#32 → x.toNat * (y.toNat / 16777216) % 256 = 0

instance (x y : BitVec 32) : Decidable (ProductRight x y) := by
  unfold ProductRight
  infer_instance

theorem partial_product {x y : BitVec 32} {k n : Nat} (hk : k < 2 ^ 32) (hn : k * n = 2 ^ 32) :
    x * (y % BitVec.ofNat 32 k) = x * y ↔ x.toNat * (y.toNat / k) % n = 0 := by
  have hpos : 0 < k := Nat.pos_of_ne_zero fun h => by simp [h] at hn
  have hsplit : x.toNat * y.toNat = x.toNat * (y.toNat % k) + k * (x.toNat * (y.toNat / k)) := by
    conv_lhs => rw [← Nat.mod_add_div y.toNat k]
    ring
  rw [← BitVec.toNat_inj, BitVec.toNat_mul, BitVec.toNat_mul, BitVec.toNat_umod, BitVec.toNat_ofNat,
    Nat.mod_eq_of_lt hk, hsplit, ← hn, ← Nat.dvd_iff_mod_eq_zero]
  constructor
  · intro h
    have hdvd := (Nat.modEq_iff_dvd' (Nat.le_add_right _ _)).mp h
    rw [Nat.add_sub_cancel_left] at hdvd
    exact Nat.dvd_of_mul_dvd_mul_left hpos hdvd
  · intro h
    refine (Nat.modEq_iff_dvd' (Nat.le_add_right _ _)).mpr ?_
    rw [Nat.add_sub_cancel_left]
    exact Nat.mul_dvd_mul_left k h

theorem multiplied_right (x y : BitVec 32) : multiplied x y = x * y ↔ ProductRight x y := by
  have hlow := partial_product (x := x) (y := y) (k := 65536) (n := 65536) (by decide) (by decide)
  have hnext := partial_product (x := x) (y := y) (k := 16777216) (n := 256) (by decide) (by decide)
  unfold multiplied ProductRight
  split
  · exact hlow
  split
  · next h => simpa [h] using hnext
  · next h => simp [h]

/-! ## The routine -/

theorem times_fold (x y : Byte) : x.setWidth 16 * y.setWidth 16 = times x y := rfl

theorem carried_fold (l : Byte) (q : BitVec 16) :
    hiByte q + carryBit (decide (256 ≤ (loByte q).toNat + l.toNat + (carryBit false).toNat)) = upper 0#8 l q := by
  rw [upper, BitVec.add_zero]

theorem upper_fold (h l : Byte) (q : BitVec 16) :
    hiByte q + h + carryBit (decide (256 ≤ (loByte q).toNat + l.toNat + (carryBit false).toNat)) = upper h l q := rfl

/-- The product that is known when the label `norip16` is reached. -/
def firstRow (s : State) : BitVec 32 :=
  weighed 1 (times (s.mem (s.s + 3#16)) s.b) + weighed 256 (times (s.mem (s.s + 2#16)) s.b) +
    weighed 65536 (times (s.mem (s.s + 1#16)) s.b) + weighed 16777216 (times (s.mem s.s) s.b) +
    weighed 256 (times (s.mem (s.s + 3#16)) s.a)

section
variable (s : State)

theorem row_low : firstRow s + weighed 65536 (times (s.mem (s.s + 2#16)) s.a) +
    weighed 16777216 (times (s.mem (s.s + 1#16)) s.a) = leftLong s * (rightLong s % 65536#32) := by
  have h := product_low (s.mem s.s) (s.mem (s.s + 1)) (s.mem (s.s + 2)) (s.mem (s.s + 3)) (hiByte s.y) (loByte s.y) s.a
    s.b
  rw [Code6800.hi_append_lo] at h
  exact h

theorem row_next : leftLong s * (rightLong s % 65536#32) + weighed 65536 (times (s.mem (s.s + 3#16)) (loByte s.y)) +
    weighed 16777216 (times (s.mem (s.s + 2#16)) (loByte s.y)) = leftLong s * (rightLong s % 16777216#32) := by
  have h := product_next (s.mem s.s) (s.mem (s.s + 1)) (s.mem (s.s + 2)) (s.mem (s.s + 3)) (hiByte s.y) (loByte s.y) s.a
    s.b
  rw [Code6800.hi_append_lo] at h
  exact h

theorem row_last :
    leftLong s * (rightLong s % 16777216#32) + weighed 16777216 (times (hiByte s.y) (s.mem (s.s + 3#16))) =
      leftLong s * rightLong s := by
  have h := product_last (s.mem s.s) (s.mem (s.s + 1)) (s.mem (s.s + 2)) (s.mem (s.s + 3)) (hiByte s.y) (loByte s.y) s.a
    s.b
  rw [Code6800.hi_append_lo] at h
  exact h

end

/-- While the product is added up below the return address. -/
structure Adding (s : State) (r : BitVec 16) (s₁ : State) : Prop where
  stack : s₁.s = s.s + 65530#16
  sum : longAt s₁.mem (s.s + 65530#16) = firstRow s
  under : Under 6 s.s r s.mem s₁.mem
  y : s₁.y = s.y
  high : s₁.page 5 = s.a
  page (i : Nat) (hi : i < 5) : s₁.page i = s.page i

/-- The sum, wherever it is left. -/
theorem computes_sum {r : BitVec 16} {v : BitVec 32} {mem m : BitVec 16 → Byte} {p : Nat → Byte} {t : BitVec 16}
    {c g z v' : Bool} (hs : t = s.s + 4) (hunder : Under 6 s.s r s.mem mem) (hm : Above 6 s.s mem m)
    (hpage : ∀ i < 5, p i = s.page i) {m₀ m₁ m₂ m₃ : Byte} (hv : (m₀ ++ m₁) ++ (m₂ ++ m₃) = v) :
    ComputesLong 6 v s ⟨⟨⟨m₂, m₃, r, m₀ ++ m₁, c⟩, t, m, g, z, v'⟩, p⟩ :=
  ⟨hv, hs, fun i _ hlt => (hunder.above.trans hm) i hlt, hpage⟩

theorem mull_tail (hcode : im.Holds a mull) {r : BitVec 16} {s₁ : State} (h : Adding s r s₁) :
    mc6809.LeavesAt im mull ⟨.__mull, .norip16⟩ s₁ fun a' s' =>
      a' = r ∧ ComputesLong 6 (multiplied (leftLong s) (rightLong s)) s s' := by
  apply Processor.leaves_wp hcode rfl Processor.asserts_none 60 rfl
  obtain ⟨hs, hsum, hunder, hy, ha, hpage⟩ := h
  obtain ⟨⟨⟨a, b, x, y, c⟩, t, mem, g, z, v'⟩, p⟩ := s₁
  simp only at hs hsum hunder hy ha hpage
  subst hs hy
  have hmem : ∀ i : BitVec 16, i.toNat < 65530 → mem (s.s + i) = s.mem (s.s + i) := hunder.above
  have h₁ := hmem 1#16 (by simp)
  have h₂ := hmem 2#16 (by simp)
  have h₃ := hmem 3#16 (by simp)
  have hret := hunder.ret
  have hlow := row_low s
  have hnext := row_next s
  have hlast := row_last s
  rw [← hsum] at hlow
  simp only [longAt, @BitVec.add_assoc 16, BitVec.reduceAdd] at hlow
  rw [← add_both] at hlow
  rw [← hlow, ← add_both] at hnext
  rw [← hnext, ← add_top] at hlast
  simp [mull, Image.behind, Processor.wp, @BitVec.add_assoc 16, -BitVec.toNat_add, ha, h₁, h₂, h₃, hret, times_fold,
    upper_fold]
  split
  · next h =>
    have hless : leftLong s * (rightLong s % 65536#32) < 16777216#32 := by
      rw [← hlow]
      exact (top_zero _ _ _).mpr h
    rw [multiplied_low hless]
    exact computes_sum rfl hunder (by simp) hpage hlow
  · next h =>
    have hmore : ¬leftLong s * (rightLong s % 65536#32) < 16777216#32 := by
      rw [← hlow]
      exact fun hless => h ((top_zero _ _ _).mp hless)
    split
    · next h' =>
      have hless : leftLong s * (rightLong s % 16777216#32) < 16777216#32 := by
        rw [← hnext]
        exact (top_zero _ _ _).mpr h'
      rw [multiplied_next hmore hless]
      exact computes_sum rfl hunder (by simp) hpage hnext
    · next h' =>
      have hmore' : ¬leftLong s * (rightLong s % 16777216#32) < 16777216#32 := by
        rw [← hnext]
        exact fun hless => h' ((top_zero _ _ _).mp hless)
      rw [multiplied_last hmore hmore']
      exact computes_sum rfl hunder (by simp) hpage hlast

theorem mull_calls (hcode : im.Holds a mull) (s : State) :
    mc6809.Calls im ⟨.__mull, .__mull⟩ s (ComputesLong 6 (multiplied (leftLong s) (rightLong s)) s) := by
  apply Processor.calls_of_leaves hcode rfl
  intro r
  let P (s₁ : State) : Prop := Adding s r s₁
  have hleft : ∀ s₁, P s₁ → mc6809.LeavesAt im mull ⟨.__mull, .norip16⟩ s₁ fun a' s' =>
      a' = r ∧ ComputesLong 6 (multiplied (leftLong s) (rightLong s)) s s' := fun s₁ h => mull_tail hcode h
  apply Processor.leaves_wp hcode rfl (Processor.asserts_one (l := ⟨.__mull, .norip16⟩) rfl hleft) 40 rfl
  have hrow := first_row (times (s.mem (s.s + 3#16)) s.b) (times (s.mem (s.s + 2#16)) s.b)
    (times (s.mem (s.s + 1#16)) s.b) (times (s.mem s.s) s.b) (times_le _ _) (times_le _ _)
  obtain ⟨⟨⟨a, b, x, y, c⟩, t, mem, g, z, v⟩, p⟩ := s
  simp only at hrow
  have hunder := under_push (n := 6) (t := t) (r := r) (m := mem) (by decide) (by decide)
  simp [mull, Image.behind, Processor.wp, @BitVec.add_assoc 16, -BitVec.toNat_add, times_fold, upper_fold, carried_fold,
    adca_carry, P]
  generalize loByte (times (mem t) b) + _ = m₀ at hrow ⊢
  generalize loByte (times (mem (t + 1#16)) b) + _ = m₁ at hrow ⊢
  generalize loByte (times (mem (t + 2#16)) b) + _ = m₂ at hrow ⊢
  generalize loByte (times (mem (t + 3#16)) b) = m₃ at hrow ⊢
  have hsum := add_middle m₀ m₃ (times (mem (t + 3#16)) a) m₁ m₂
  rw [hrow] at hsum
  have hpage (i : Nat) (hi : i < 5) : Function.update (Function.update p 6 b) 5 a i = p i := by
    rw [Function.update_of_ne (by omega), Function.update_of_ne (by omega)]
  split
  · next h =>
    rw [decide_eq_false (Nat.not_le.mpr h), carryBit, if_neg Bool.false_ne_true] at hsum
    refine ⟨rfl, ?_, by simpa [under_poke] using hunder, rfl, by simp, hpage⟩
    simpa [longAt, @BitVec.add_assoc 16, -BitVec.toNat_add, firstRow] using hsum
  · next h =>
    rw [decide_eq_true (Nat.not_lt.mp h), carryBit, if_pos rfl] at hsum
    refine ⟨rfl, ?_, by simpa [under_poke] using hunder, rfl, by simp, hpage⟩
    simpa [longAt, @BitVec.add_assoc 16, -BitVec.toNat_add, firstRow] using hsum

/-- A right operand of one word leaves nothing out. -/
theorem product_of_word {x y : BitVec 32} (h : y.toNat < 65536) : ProductRight x y := by
  unfold ProductRight
  rw [Nat.div_eq_of_lt h, Nat.div_eq_of_lt (by omega)]
  split
  · rfl
  · intro _
    rfl

/-- `__mull` comes back with the sum that it leaves in Y and D, which is the product of C when nothing is missing from
it. -/
theorem long_products (hcode : im.Holds a mull) :
    mc6809.Calls im ⟨.__mull, .__mull⟩ s fun s' =>
      ComputesLong 6 (multiplied (leftLong s) (rightLong s)) s s' ∧
        (s'.y ++ s'.d = leftLong s * rightLong s ↔ ProductRight (leftLong s) (rightLong s)) := by
  refine Processor.Calls.mono (mull_calls hcode s) fun s' h => ⟨h, ?_⟩
  rw [h.long]
  exact multiplied_right _ _

/-- Y and D are 65536 and the long on the stack is 3. -/
def multiplyingLongs : State :=
  { a := 0, b := 0, x := 0, y := 1, carry := false, s := 0x8000, negative := false, zero := false, overflow := false
    mem := fun i => if i = 0x8003 then 3 else 0
    page := fun i => if i = 4 then 1 else 0 }

/-- The byte at the top is zero before the third byte has its turn. -/
theorem three_times_65536 :
    mc6809.Calls (Image.link 16 mull) ⟨.__mull, .__mull⟩ multiplyingLongs (ComputesLong 6 0 multiplyingLongs) := by
  have hlinked : (Image.link 16 mull).Holds 0 mull := Image.holds_link (by decide) (by decide)
  have hzero : multiplied (leftLong multiplyingLongs) (rightLong multiplyingLongs) = 0 := by decide
  exact Processor.Calls.mono (long_products hlinked) fun s' h => hzero ▸ h.1

end Fuzemsys.Fcc.Runtime
