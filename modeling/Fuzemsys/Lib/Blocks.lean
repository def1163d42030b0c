import Mathlib.Data.BitVec
import Mathlib.Data.List.Forall2
import Mathlib.Logic.Function.Basic

/-!
# Blocks of values in a flat memory

A memory is a function from `w`-bit addresses. `overlay` writes a list of values
from a base address on, without wrap-around. A program that fills memory
downwards builds one long block by adding pieces at its front.
-/

namespace Fuzemsys.Lib

universe u

variable {w : Nat} {β : Type u}

/-- `f` with the values of `img` at `base`, `base + 1` and so on. -/
def overlay (base : Nat) (img : List β) (f : BitVec w → β) : BitVec w → β :=
  fun a => if base ≤ a.toNat then (img[a.toNat - base]?).getD (f a) else f a

/-- The `n` values from address `a` on. -/
def valuesAt (f : BitVec w → β) (a : BitVec w) (n : Nat) : List β :=
  (List.range n).map fun i => f (a + BitVec.ofNat w i)

/-! ## Reading an overlay -/

@[simp]
theorem overlay_nil (base : Nat) (f : BitVec w → β) : overlay base [] f = f := by
  funext a
  simp [overlay]

theorem overlay_get (base : Nat) (img : List β) (f : BitVec w → β) (a : BitVec w) (i : Nat)
    (hi : i < img.length) (ha : a.toNat = base + i) : overlay base img f a = img[i] := by
  simp [overlay, ha, hi]

theorem overlay_below (base : Nat) (img : List β) (f : BitVec w → β) (a : BitVec w)
    (ha : a.toNat < base) : overlay base img f a = f a := by
  simp only [overlay, Nat.not_le.mpr ha, if_false]

theorem overlay_above (base : Nat) (img : List β) (f : BitVec w → β) (a : BitVec w)
    (ha : base + img.length ≤ a.toNat) : overlay base img f a = f a := by
  simp only [overlay]
  rw [List.getElem?_eq_none (by omega)]
  simp

/-! ## Building an overlay from the front -/

theorem overlay_append (base : Nat) (xs ys : List β) (f : BitVec w → β) :
    overlay base xs (overlay (base + xs.length) ys f) = overlay base (xs ++ ys) f := by
  funext a
  simp only [overlay]
  split
  · next hbase =>
    by_cases hx : a.toNat - base < xs.length
    · simp [List.getElem?_append_left hx, hx]
    · have hle : base + xs.length ≤ a.toNat := by omega
      rw [List.getElem?_append_right (by omega), List.getElem?_eq_none (by omega), if_pos hle,
        show a.toNat - base - xs.length = a.toNat - (base + xs.length) by omega]
      rfl
  · rw [if_neg (by omega)]

theorem overlay_singleton (base : Nat) (x : β) (f : BitVec w → β) (hbase : base < 2 ^ w) :
    overlay base [x] f = Function.update f (BitVec.ofNat w base) x := by
  funext a
  by_cases ha : a = BitVec.ofNat w base
  · subst ha
    simp [overlay, Nat.mod_eq_of_lt hbase]
  · have hne : a.toNat ≠ base := by
      intro h
      exact ha (BitVec.eq_of_toNat_eq (by simp [h, Nat.mod_eq_of_lt hbase]))
    rw [Function.update_of_ne ha]
    rcases Nat.lt_or_ge a.toNat base with hlt | hge
    · exact overlay_below base [x] f a hlt
    · exact overlay_above base [x] f a (by simp only [List.length_singleton]; omega)

/-- Two stores at neighbouring addresses are one overlay of two values. -/
theorem update_update_eq_overlay (a : BitVec w) (x y : β) (f : BitVec w → β)
    (ha : a.toNat + 1 < 2 ^ w) :
    Function.update (Function.update f a x) (a + 1) y = overlay a.toNat [x, y] f := by
  have hone : (a + 1) = BitVec.ofNat w (a.toNat + 1) := by
    apply BitVec.eq_of_toNat_eq
    simp [BitVec.toNat_add]
  have hne : a ≠ a + 1 := by
    intro h
    have := congrArg BitVec.toNat h
    rw [hone, BitVec.toNat_ofNat, Nat.mod_eq_of_lt ha] at this
    omega
  rw [Function.update_comm hne, show [x, y] = [x] ++ [y] from rfl, ← overlay_append,
    overlay_singleton _ _ _ (by omega), List.length_singleton, overlay_singleton _ _ _ ha, hone]
  simp

/-- A piece of an overlay, read back. -/
theorem valuesAt_overlay (base : Nat) (xs ys zs : List β) (f : BitVec w → β) (a : BitVec w)
    (ha : a.toNat = base + xs.length) (hroom : base + xs.length + ys.length ≤ 2 ^ w) :
    valuesAt (overlay base (xs ++ ys ++ zs) f) a ys.length = ys := by
  apply List.ext_getElem
  · simp [valuesAt]
  · intro i hi hy
    have hsum : (a + BitVec.ofNat w i).toNat = base + (xs.length + i) := by
      rw [BitVec.toNat_add, BitVec.toNat_ofNat, Nat.mod_eq_of_lt (by omega : i < 2 ^ w), ha,
        Nat.mod_eq_of_lt (by omega)]
      omega
    simp only [valuesAt, List.getElem_map, List.getElem_range]
    rw [overlay_get base _ f _ (xs.length + i) (by simp only [List.length_append]; omega) hsum]
    simp [hy]

/-! ## Consecutive regions -/

/-- Addresses from `start` on, `len` of them. -/
structure Region where
  start : Nat
  len : Nat
  deriving DecidableEq, Repr

def Region.Disjoint (r s : Region) : Prop := r.start + r.len ≤ s.start ∨ s.start + s.len ≤ r.start

/-- Regions of the given lengths, one directly after the other. -/
def consecutive : Nat → List Nat → List Region
  | _, [] => []
  | base, n :: lens => { start := base, len := n } :: consecutive (base + n) lens

theorem consecutive_append (base : Nat) (xs ys : List Nat) :
    consecutive base (xs ++ ys) = consecutive base xs ++ consecutive (base + xs.sum) ys := by
  induction xs generalizing base with
  | nil => simp [consecutive]
  | cons n xs ih => simp [consecutive, ih, Nat.add_assoc]

theorem consecutive_inside (base : Nat) (lens : List Nat) (r : Region)
    (hr : r ∈ consecutive base lens) : base ≤ r.start ∧ r.start + r.len ≤ base + lens.sum := by
  induction lens generalizing base with
  | nil => simp [consecutive] at hr
  | cons n lens ih =>
    rw [consecutive, List.mem_cons] at hr
    rcases hr with rfl | hr
    · simp only [List.sum_cons]
      omega
    · have := ih (base + n) hr
      simp only [List.sum_cons]
      omega

theorem consecutive_disjoint (base : Nat) (lens : List Nat) :
    (consecutive base lens).Pairwise Region.Disjoint := by
  induction lens generalizing base with
  | nil => exact List.Pairwise.nil
  | cons n lens ih =>
    refine List.Pairwise.cons ?_ (ih (base + n))
    intro r hr
    exact .inl (consecutive_inside (base + n) lens r hr).1

end Fuzemsys.Lib
