import Mathlib.Logic.Equiv.Basic

/-!
# Rearranging part of an array

An array is a function of its index, and what happens to it is confined to a range.
-/

namespace Fuzemsys.Lib

variable {α : Type*} {lo hi : Int} {a b c : Int → α}

/-- `b` has the elements of `a` between `lo` and `hi` in another order, and the others in place. -/
def Rearranged (lo hi : Int) (a b : Int → α) : Prop :=
  ∃ σ : Equiv.Perm Int, (∀ k, k < lo ∨ hi < k → σ k = k) ∧ b = a ∘ σ

namespace Rearranged

theorem refl (lo hi : Int) (a : Int → α) : Rearranged lo hi a a :=
  ⟨Equiv.refl _, fun _ _ => rfl, rfl⟩

theorem trans (hab : Rearranged lo hi a b) (hbc : Rearranged lo hi b c) : Rearranged lo hi a c := by
  obtain ⟨σ, hσ, rfl⟩ := hab
  obtain ⟨τ, hτ, rfl⟩ := hbc
  refine ⟨τ.trans σ, ?_, by simp [Function.comp_assoc]⟩
  intro k hk
  simp [hτ k hk, hσ k hk]

theorem symm (h : Rearranged lo hi a b) : Rearranged lo hi b a := by
  obtain ⟨σ, hσ, rfl⟩ := h
  refine ⟨σ.symm, fun k hk => ?_, ?_⟩
  · rw [Equiv.symm_apply_eq, hσ k hk]
  · funext k
    simp

theorem mono {lo' hi' : Int} (hlo : lo' ≤ lo) (hhi : hi ≤ hi') (h : Rearranged lo hi a b) :
    Rearranged lo' hi' a b := by
  obtain ⟨σ, hσ, rfl⟩ := h
  exact ⟨σ, fun k hk => hσ k (by omega), rfl⟩

theorem outside (h : Rearranged lo hi a b) {k : Int} (hk : k < lo ∨ hi < k) : b k = a k := by
  obtain ⟨σ, hσ, rfl⟩ := h
  simp [hσ k hk]

theorem inside (h : Rearranged lo hi a b) {k : Int} (hlo : lo ≤ k) (hhi : k ≤ hi) :
    ∃ m, lo ≤ m ∧ m ≤ hi ∧ b k = a m := by
  obtain ⟨σ, hσ, rfl⟩ := h
  refine ⟨σ k, ?_⟩
  by_contra hout
  have hm : σ k < lo ∨ hi < σ k := by
    by_contra
    exact hout ⟨by omega, by omega, rfl⟩
  have hfix : σ k = k := σ.injective (hσ _ hm)
  omega

/-- A hole at `i`, kept for `x`, moves to `j` when the element of `j` fills it. -/
theorem hole_move (x : α) {i j : Int} (hi' : lo ≤ i ∧ i ≤ hi) (hj : lo ≤ j ∧ j ≤ hi) :
    Rearranged lo hi (Function.update a i x) (Function.update (Function.update a i (a j)) j x) := by
  refine ⟨Equiv.swap i j, ?_, ?_⟩
  · intro k hk
    exact Equiv.swap_apply_of_ne_of_ne (by omega) (by omega)
  · funext k
    simp only [Function.comp, Function.update_apply, Equiv.swap_apply_def]
    split_ifs <;> simp_all

end Rearranged

/-! ## Order -/

/-- No element between `lo` and `hi` stands behind a greater one. -/
def InOrder (le : α → α → Prop) (lo hi : Int) (a : Int → α) : Prop :=
  ∀ j k, lo ≤ j → j ≤ k → k ≤ hi → le (a j) (a k)

/-- The element at `i` has the smaller ones in front and the greater ones behind. -/
structure SplitAt (le : α → α → Prop) (lo i hi : Int) (a : Int → α) : Prop where
  front : ∀ k, lo ≤ k → k < i → le (a k) (a i)
  behind : ∀ k, i < k → k ≤ hi → le (a i) (a k)

namespace SplitAt

variable {le : α → α → Prop} {i : Int}

theorem rearranged_front (h : SplitAt le lo i hi a) (hab : Rearranged lo (i - 1) a b) :
    SplitAt le lo i hi b := by
  have hpivot : b i = a i := hab.outside (by omega)
  constructor
  · intro k hk hki
    obtain ⟨m, hm, hmi, hval⟩ := hab.inside hk (by omega)
    rw [hval, hpivot]
    exact h.front m hm (by omega)
  · intro k hik hk
    rw [hpivot, hab.outside (by omega)]
    exact h.behind k hik hk

theorem rearranged_behind (h : SplitAt le lo i hi a) (hab : Rearranged (i + 1) hi a b) :
    SplitAt le lo i hi b := by
  have hpivot : b i = a i := hab.outside (by omega)
  constructor
  · intro k hk hki
    rw [hpivot, hab.outside (by omega)]
    exact h.front k hk hki
  · intro k hik hk
    obtain ⟨m, hm, hmi, hval⟩ := hab.inside (by omega : i + 1 ≤ k) hk
    rw [hval, hpivot]
    exact h.behind m (by omega) hmi

/-- Two ordered parts around the element make an ordered whole. -/
theorem inOrder (h : SplitAt le lo i hi a) (hrefl : ∀ x, le x x)
    (htrans : ∀ x y z, le x y → le y z → le x z)
    (hfront : InOrder le lo (i - 1) a) (hbehind : InOrder le (i + 1) hi a) : InOrder le lo hi a := by
  intro j k hj hjk hk
  rcases Int.lt_trichotomy k i with hki | rfl | hki
  · exact hfront j k hj hjk (by omega)
  · rcases Int.le_iff_eq_or_lt.1 hjk with rfl | hlt
    · exact hrefl _
    · exact h.front j hj hlt
  · rcases Int.lt_trichotomy j i with hji | rfl | hji
    · exact htrans _ _ _ (h.front j hj hji) (h.behind k hki hk)
    · exact h.behind k hki hk
    · exact hbehind j k (by omega) hjk hk

end SplitAt

theorem InOrder.rearranged {le : α → α → Prop} {lo' hi' : Int} (h : InOrder le lo hi a)
    (hab : Rearranged lo' hi' a b) (hout : hi < lo' ∨ hi' < lo) : InOrder le lo hi b := by
  intro j k hj hjk hk
  rw [hab.outside (by omega), hab.outside (by omega)]
  exact h j k hj hjk hk

end Fuzemsys.Lib
