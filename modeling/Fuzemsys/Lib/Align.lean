import Mathlib.Data.List.Nodup
import Mathlib.Logic.Function.Basic

/-!
# Rounding up to an alignment

The least multiple of an alignment that is not below a number, and blocks that
each start where the one before ends, rounded up, except those with a fixed place.
-/

namespace Fuzemsys.Lib

/-- The least multiple of `a` from `x` on. -/
def alignUp (a x : Nat) : Nat := (x + a - 1) / a * a

variable {a x y : Nat}

theorem le_alignUp (ha : 0 < a) : x ≤ alignUp a x := by
  have hdiv := Nat.div_add_mod (x + a - 1) a
  have hlt := Nat.mod_lt (x + a - 1) ha
  rw [Nat.mul_comm] at hdiv
  unfold alignUp
  omega

theorem alignUp_lt (ha : 0 < a) : alignUp a x < x + a := by
  have hle := Nat.div_mul_le_self (x + a - 1) a
  unfold alignUp
  omega

theorem dvd_alignUp (a x : Nat) : a ∣ alignUp a x := Nat.dvd_mul_left a _

theorem alignUp_le (ha : 0 < a) (hy : a ∣ y) (hxy : x ≤ y) : alignUp a x ≤ y := by
  obtain ⟨k, rfl⟩ := hy
  have hlt : (x + a - 1) / a < k + 1 := by
    rw [Nat.div_lt_iff_lt_mul ha, Nat.mul_comm, Nat.mul_succ]
    omega
  unfold alignUp
  rw [Nat.mul_comm]
  exact Nat.mul_le_mul_left a (Nat.le_of_lt_succ hlt)

theorem alignUp_of_dvd (ha : 0 < a) (hx : a ∣ x) : alignUp a x = x :=
  Nat.le_antisymm (alignUp_le ha hx (Nat.le_refl x)) (le_alignUp ha)

/-! ## Blocks one after the other -/

section Places

variable {κ : Type*} {fixed : κ → Option Nat} {size : κ → Nat} {next : Nat} {ks : List κ}

/-- The place of each block of a list, where the first may start at `next`. -/
def places (fixed : κ → Option Nat) (a : Nat) (size : κ → Nat) : Nat → List κ → List (κ × Nat)
  | _, [] => []
  | next, k :: ks =>
    let start := (fixed k).getD next
    (k, start) :: places fixed a size (alignUp a (start + size k)) ks

@[simp]
theorem places_nil : places fixed a size next [] = [] := rfl

@[simp]
theorem places_cons (k : κ) :
    places fixed a size next (k :: ks) =
      (k, (fixed k).getD next) :: places fixed a size (alignUp a ((fixed k).getD next + size k)) ks := rfl

@[simp]
theorem map_fst_places : (places fixed a size next ks).map Prod.fst = ks := by
  induction ks generalizing next with
  | nil => rfl
  | cons k ks ih => simp [ih]

theorem places_congr {size' : κ → Nat} (hsize : ∀ k ∈ ks, size k = size' k) :
    places fixed a size next ks = places fixed a size' next ks := by
  induction ks generalizing next with
  | nil => rfl
  | cons k ks ih =>
    have hk : size k = size' k := hsize k (by simp)
    simp only [places_cons, hk, ih fun j hj => hsize j (by simp [hj])]

theorem snd_places_of_fixed {p : κ × Nat} (hp : p ∈ places fixed a size next ks) {b : Nat}
    (hb : fixed p.1 = some b) : p.2 = b := by
  induction ks generalizing next with
  | nil => simp at hp
  | cons k ks ih =>
    rcases List.mem_cons.mp hp with rfl | hp
    · exact hb ▸ rfl
    · exact ih hp

theorem dvd_places (hnext : a ∣ next) (hfixed : ∀ k ∈ ks, ∀ b, fixed k = some b → a ∣ b) :
    ∀ p ∈ places fixed a size next ks, a ∣ p.2 := by
  induction ks generalizing next with
  | nil => simp
  | cons k ks ih =>
    rintro p hp
    rcases List.mem_cons.mp hp with rfl | hp
    · cases hk : fixed k with
      | none => simpa [hk] using hnext
      | some b => simpa [hk] using hfixed k (by simp) b hk
    · exact ih (dvd_alignUp _ _) (fun k hk => hfixed k (by simp [hk])) p hp

theorem le_places (ha : 0 < a) (hfree : ∀ k ∈ ks, fixed k = none) :
    ∀ p ∈ places fixed a size next ks, next ≤ p.2 := by
  induction ks generalizing next with
  | nil => simp
  | cons k ks ih =>
    rintro p hp
    have hk : fixed k = none := hfree k (by simp)
    rcases List.mem_cons.mp hp with rfl | hp
    · simp [hk]
    · have hle := ih (fun k hk => hfree k (by simp [hk])) p hp
      have hup : (fixed k).getD next + size k ≤ alignUp a ((fixed k).getD next + size k) := le_alignUp ha
      simp only [hk, Option.getD_none] at hup hle
      omega

/-- Free blocks never meet an earlier one. -/
theorem pairwise_places (ha : 0 < a) (hfree : ∀ k ∈ ks.tail, fixed k = none) :
    (places fixed a size next ks).Pairwise fun p q => p.2 + size p.1 ≤ q.2 := by
  induction ks generalizing next with
  | nil => simp
  | cons k ks ih =>
    have hks : ∀ k ∈ ks, fixed k = none := hfree
    refine List.pairwise_cons.mpr ⟨?_, ih fun j hj => hks j (List.mem_of_mem_tail hj)⟩
    rintro q hq
    exact Nat.le_trans (le_alignUp ha) (le_places ha hks q hq)

end Places

/-! ## The last place of each block -/

section Placed

variable {κ β γ : Type*} [DecidableEq κ] {f : κ → β} {ps : List (κ × β)} {k : κ} {b : β}

/-- A table after the places of a list were stored in it, in order. -/
def placed (f : κ → β) (ps : List (κ × β)) : κ → β :=
  ps.foldl (fun f p => Function.update f p.1 p.2) f

@[simp]
theorem placed_nil : placed f [] = f := rfl

@[simp]
theorem placed_cons (p : κ × β) : placed f (p :: ps) = placed (Function.update f p.1 p.2) ps := rfl

theorem placed_of_not_mem (hk : k ∉ ps.map Prod.fst) : placed f ps k = f k := by
  induction ps generalizing f with
  | nil => rfl
  | cons p ps ih =>
    simp only [List.map_cons, List.mem_cons, not_or] at hk
    rw [placed_cons, ih hk.2, Function.update_of_ne hk.1]

theorem placed_mem (hk : k ∈ ps.map Prod.fst) : (k, placed f ps k) ∈ ps := by
  induction ps generalizing f with
  | nil => simp at hk
  | cons p ps ih =>
    by_cases hps : k ∈ ps.map Prod.fst
    · exact List.mem_cons_of_mem _ (ih hps)
    · have hp : k = p.1 := by simpa [hps] using hk
      rw [placed_cons, placed_of_not_mem hps, hp, Function.update_self]
      exact List.mem_cons_self

theorem placed_of_nodup (hnodup : (ps.map Prod.fst).Nodup) (hmem : (k, b) ∈ ps) :
    placed f ps k = b := by
  have hk := placed_mem (f := f) (List.mem_map_of_mem (f := Prod.fst) hmem)
  exact congrArg Prod.snd (List.inj_on_of_nodup_map hnodup hk hmem rfl)

theorem placed_map (g : β → γ) :
    placed (g ∘ f) (ps.map fun p => (p.1, g p.2)) = g ∘ placed f ps := by
  induction ps generalizing f with
  | nil => rfl
  | cons p ps ih => rw [List.map_cons, placed_cons, placed_cons, ← ih, Function.comp_update]

end Placed

end Fuzemsys.Lib
