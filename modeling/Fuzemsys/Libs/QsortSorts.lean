import Mathlib.Tactic.Ring
import Mathlib.Tactic.NormNum
import Mathlib.Tactic.Linarith
import Fuzemsys.Libs.Qsort

/-!
# qsort sorts

Addresses first, then the two scans, one round of the partition loop, the partition and
the sort itself.
-/

namespace Fuzemsys.Libs.Qsort

open Fuzemsys.Lib

variable {t : Target} {size num : Nat} {cmp : Cmp} {seen : Elem → Elem} {S : Elem → Prop}
  {a : Records} {p e : Elem} {i j k lo hi : Int} {fuel : Nat}

/-! ## Addresses -/

/-- What a sort of elements from `S` can rely on. -/
structure Ready (t : Target) (num size : Nat) (cmp : Cmp) (seen : Elem → Elem) (S : Elem → Prop) :
    Prop where
  bytes_fit : size * num < 2 ^ t.bits
  inside : PivotInside t num size
  empty : size = 0 → ∀ x, S x → x = []
  told : ∀ x y, S x → S y → (notAbove cmp x (seen y) ↔ notAbove cmp x y)
  order : TotalPreorder cmp

/-- The array has elements from `S` only. -/
def Within (num : Nat) (S : Elem → Prop) (a : Records) : Prop := ∀ k : Int, 0 ≤ k → k < num → S (a k)

theorem Within.update (h : Within num S a) (he : S e) : Within num S (Function.update a k e) := by
  intro m hm hmn
  rw [Function.update_apply]
  split_ifs with hmk
  · exact he
  · exact h m hm hmn

theorem Within.rearranged {b : Records} (h : Within num S a) (hlo : 0 ≤ lo) (hhi : hi < num)
    (hab : Rearranged lo hi a b) : Within num S b := by
  intro k hk hkn
  obtain ⟨m, hm, hmn, hval⟩ := (hab.mono hlo (by omega : hi ≤ num - 1)).inside hk (by omega)
  rw [hval]
  exact h m hm (by omega)

theorem toInt_eq (hlo : -2 ^ (t.bits - 1) ≤ i) (hhi : i < 2 ^ (t.bits - 1)) : toInt t i = i := by
  rcases t with ⟨_ | _, _⟩ <;>
    exact Int.bmod_eq_of_le (by norm_num [Target.bits] at *; omega) (by norm_num [Target.bits] at *; omega)

theorem index_kept (h : PivotInside t num size) (hlo : -1 ≤ i) (hhi : i ≤ num) : toInt t i = i := by
  have hnum : (num : Int) < 2 ^ (t.bits - 1) := by exact_mod_cast h.1
  have hone : (1 : Int) ≤ 2 ^ (t.bits - 1) := one_le_pow₀ (by norm_num)
  exact toInt_eq (by linarith) (by linarith)

theorem slot_congr (h : size * i % 2 ^ t.bits = size * j % 2 ^ t.bits) :
    slot t size num i = slot t size num j := by
  unfold slot
  rw [h]

theorem slot_index (hsize : 0 < size) (hfit : size * num < 2 ^ t.bits) (hk : 0 ≤ k) (hkn : k < num) :
    slot t size num k = some k := by
  have hsize' : (0 : Int) < size := by exact_mod_cast hsize
  have hfit' : (size : Int) * num < 2 ^ t.bits := by exact_mod_cast hfit
  have hoff : size * k % 2 ^ t.bits = size * k :=
    Int.emod_eq_of_lt (by positivity) (lt_of_le_of_lt (by gcongr) hfit')
  simp [slot, hoff, Int.mul_ediv_cancel_left k hsize'.ne', hkn]

theorem slot_empty (hk : 0 ≤ k) (hkn : k < num) : slot t 0 num k = some 0 := by
  simp only [slot, Nat.cast_zero, zero_mul, Int.zero_emod, Int.zero_ediv]
  rw [if_pos ⟨trivial, by omega⟩]

/-- The middle of two indices is found also where their sum wraps around. -/
theorem pivot_offset (h : PivotInside t num size) (hlo : 0 ≤ lo) (hlt : lo < hi) (hhi : hi < num) :
    size * PIVOT t lo hi % 2 ^ t.bits = size * ((lo + hi) / 2) % 2 ^ t.bits := by
  have hbits : (2 : Int) ^ t.bits = 2 * 2 ^ (t.bits - 1) := by
    rcases t with ⟨_ | _, _⟩ <;> norm_num [Target.bits]
  obtain ⟨hnum, ⟨m, rfl⟩ | hsmall⟩ := h
  · obtain ⟨q, hq⟩ : ∃ q, lo + hi = toInt t (lo + hi) + 2 ^ t.bits * q :=
      ⟨_, by simpa [toInt] using (Int.bmod_add_bdiv (lo + hi) (2 ^ t.bits)).symm⟩
    have hhalf : (lo + hi) / 2 = PIVOT t lo hi + 2 ^ (t.bits - 1) * q := by
      calc (lo + hi) / 2 = (toInt t (lo + hi) + 2 * (2 ^ (t.bits - 1) * q)) / 2 := by
            rw [← mul_assoc, ← hbits, ← hq]
        _ = PIVOT t lo hi + 2 ^ (t.bits - 1) * q := by
            rw [Int.add_mul_ediv_left _ _ (by norm_num), PIVOT, Int.shiftRight_eq_div_pow]
            rfl
    have hwhole : ((2 * m : Nat) : Int) * ((lo + hi) / 2) =
        (2 * m : Nat) * PIVOT t lo hi + 2 ^ t.bits * (m * q) := by
      rw [hhalf, hbits]
      push_cast
      ring
    rw [hwhole, Int.add_mul_emod_self_left]
  · have hquarter : (2 : Int) ^ (t.bits - 1) = 2 * 2 ^ (t.bits - 2) := by
      rcases t with ⟨_ | _, _⟩ <;> norm_num [Target.bits]
    have hsmall' : (num : Int) ≤ 2 ^ (t.bits - 2) + 1 := by exact_mod_cast hsmall
    have hfits : toInt t (lo + hi) = lo + hi := toInt_eq (by linarith) (by omega)
    rw [PIVOT, hfits, Int.shiftRight_eq_div_pow]
    rfl

theorem get_eq (h : Ready t num size cmp seen S) (ha : Within num S a) (hk : 0 ≤ k) (hkn : k < num)
    (hi : size * i % 2 ^ t.bits = size * k % 2 ^ t.bits) : get t size num a i = some (a k) := by
  rw [get, slot_congr hi]
  rcases Nat.eq_zero_or_pos size with rfl | hsize
  · have hempty := h.empty rfl
    rw [slot_empty hk hkn, Option.map_some, hempty _ (ha 0 le_rfl (by omega)), hempty _ (ha k hk hkn)]
  · rw [slot_index hsize h.bytes_fit hk hkn, Option.map_some]

theorem put_eq (h : Ready t num size cmp seen S) (ha : Within num S a) (he : S e) (hk : 0 ≤ k)
    (hkn : k < num) (hi : size * i % 2 ^ t.bits = size * k % 2 ^ t.bits) :
    put t size num a i e = some (Function.update a k e) := by
  rw [put, slot_congr hi]
  rcases Nat.eq_zero_or_pos size with rfl | hsize
  · have hempty := h.empty rfl
    have hzero : Function.update a 0 e = a := by
      rw [hempty e he, ← hempty _ (ha 0 le_rfl (by omega)), Function.update_eq_self]
    have hself : Function.update a k e = a := by
      rw [hempty e he, ← hempty _ (ha k hk hkn), Function.update_eq_self]
    rw [slot_empty hk hkn, Option.map_some, hzero, hself]
  · rw [slot_index hsize h.bytes_fit hk hkn, Option.map_some]

/-- Indices of the array name its elements. -/
theorem get_index (h : Ready t num size cmp seen S) (ha : Within num S a) (hk : 0 ≤ k) (hkn : k < num) :
    get t size num a k = some (a k) :=
  get_eq h ha hk hkn rfl

theorem put_index (h : Ready t num size cmp seen S) (ha : Within num S a) (he : S e) (hk : 0 ≤ k)
    (hkn : k < num) : put t size num a k e = some (Function.update a k e) :=
  put_eq h ha he hk hkn rfl

/-! ## The scans -/

theorem Ready.above_iff (h : Ready t num size cmp seen S) {x : Elem} (hx : S x) (hp : S p) :
    cmp x (seen p) > 0 ↔ ¬ notAbove cmp x p := by
  rw [← h.told x p hx hp, notAbove, not_le]

theorem Ready.below_iff (h : Ready t num size cmp seen S) {x : Elem} (hx : S x) (hp : S p) :
    cmp x (seen p) ≤ 0 ↔ notAbove cmp x p :=
  h.told x p hx hp

/-- An element at `k` that is not above the pivot stops the scan. -/
theorem scanDown_stops (h : Ready t num size cmp seen S) (ha : Within num S a) (hp : S p)
    (hk : 0 ≤ k) (hstop : notAbove cmp (a k) p) :
    ∀ (fuel : Nat) j, k ≤ j → j < num → j - k < fuel →
      ∃ j', scanDown t size num cmp seen fuel a p j = some j' ∧ k ≤ j' ∧ j' ≤ j ∧
        notAbove cmp (a j') p ∧ ∀ m, j' < m → m ≤ j → ¬ notAbove cmp (a m) p := by
  intro fuel
  induction fuel with
  | zero => intro j hkj hj hfuel; omega
  | succ fuel ih =>
    intro j hkj hj hfuel
    have hs : S (a j) := ha j (by omega) hj
    simp only [scanDown, get_index h ha (by omega : 0 ≤ j) hj, Option.bind_eq_bind, Option.bind_some]
    by_cases hj' : notAbove cmp (a j) p
    · exact ⟨j, if_neg (by simpa [h.above_iff hs hp] using hj'), hkj, le_rfl, hj', fun m _ _ => by omega⟩
    · have hne : k ≠ j := by
        rintro rfl
        exact hj' hstop
      rw [if_pos ((h.above_iff hs hp).2 hj'), index_kept h.inside (by omega) (by omega)]
      obtain ⟨m, hm, hkm, hmj, hlow, habove⟩ := ih (j - 1) (by omega) (by omega) (by omega)
      refine ⟨m, hm, hkm, by omega, hlow, ?_⟩
      intro n hmn hnj
      rcases Int.le_iff_eq_or_lt.1 hnj with rfl | hlt
      · exact hj'
      · exact habove n hmn (by omega)

theorem scanUp_stops (h : Ready t num size cmp seen S) (ha : Within num S a) (hp : S p) (hj : j < num) :
    ∀ (fuel : Nat) i, 0 ≤ i → 0 < fuel → j - i < fuel →
      ∃ i', scanUp t size num cmp seen fuel a p i j = some i' ∧ i ≤ i' ∧ (i' ≤ j ∨ i' = i) ∧
        (∀ m, i ≤ m → m < i' → notAbove cmp (a m) p) ∧ (i' < j → ¬ notAbove cmp (a i') p) := by
  intro fuel
  induction fuel with
  | zero => intro i hi hpos; omega
  | succ fuel ih =>
    intro i hi _ hfuel
    unfold scanUp
    by_cases hij : i < j
    · have hs : S (a i) := ha i hi (by omega)
      simp only [if_pos hij, get_index h ha hi (by omega), Option.bind_eq_bind, Option.bind_some]
      by_cases hi' : notAbove cmp (a i) p
      · rw [if_pos ((h.below_iff hs hp).2 hi'), index_kept h.inside (by omega) (by omega)]
        obtain ⟨m, hm, him, hmj, hlow, habove⟩ := ih (i + 1) (by omega) (by omega) (by omega)
        refine ⟨m, hm, by omega, by omega, ?_, habove⟩
        intro n hin hnm
        rcases Int.le_iff_eq_or_lt.1 hin with rfl | hlt
        · exact hi'
        · exact hlow n (by omega) hnm
      · exact ⟨i, if_neg (by simpa [h.below_iff hs hp] using hi'), le_rfl, Or.inr rfl, fun m _ _ => by omega, fun _ => hi'⟩
    · exact ⟨i, by simp [hij], le_rfl, Or.inr rfl, fun m _ _ => by omega, fun hlt => absurd hlt hij⟩

/-! ## The partition -/

/-- Between two rounds the hole is at `i`: putting the pivot there gives the range back. -/
structure Halfway (num : Nat) (cmp : Cmp) (S : Elem → Prop) (lo hi : Int) (p : Elem) (orig a : Records)
    (i j : Int) : Prop where
  moved : Rearranged lo hi orig (Function.update a i p)
  within : Within num S a
  left : lo ≤ i ∧ i ≤ hi
  right : lo ≤ j ∧ j ≤ hi
  near : i ≤ j + 1
  front : ∀ m, lo ≤ m → m < i → notAbove cmp (a m) p
  behind : ∀ m, j < m → m ≤ hi → m ≠ i → ¬ notAbove cmp (a m) p
  stop : notAbove cmp (a i) p ∨ lo < i

/-- The scan from the right stops at the hole at the latest, or right in front of it. -/
theorem Halfway.stops {orig : Records} (w : Halfway num cmp S lo hi p orig a i j) :
    ∃ k, lo ≤ k ∧ i ≤ k + 1 ∧ k ≤ i ∧ notAbove cmp (a k) p := by
  rcases w.stop with h | h
  · exact ⟨i, w.left.1, by omega, le_rfl, h⟩
  · exact ⟨i - 1, by omega, by omega, by omega, w.front _ (by omega) (by omega)⟩

theorem fillHoles_round {orig : Records} (fuel : Nat) (h : Ready t num size cmp seen S) (hp : S p) (hlo : 0 ≤ lo)
    (hhi : hi < num) (w : Halfway num cmp S lo hi p orig a i j) (hij : i < j) (hfuel : j - i + 1 < fuel) :
    ∃ a' i' j', fillHoles t size num cmp seen fuel a p i j = some (a', i', j') ∧
      Halfway num cmp S lo hi p orig a' i' j' ∧ j' - i' < j - i := by
  obtain ⟨k, hk, hik, hki, hkp⟩ := w.stops
  have hleft := w.left
  have hright := w.right
  obtain ⟨j', hdown, hkj, hjj, hlow, habove⟩ :=
    scanDown_stops h w.within hp (by omega) hkp fuel j (by omega) (by omega) (by omega)
  -- The hole moves to `j'`.
  obtain ⟨b, hbdef⟩ : ∃ b, b = Function.update a i (a j') := ⟨_, rfl⟩
  have hbm : ∀ m, m ≠ i → b m = a m := fun m hm => hbdef ▸ Function.update_of_ne hm _ _
  have hbi : b i = a j' := hbdef ▸ Function.update_self _ _ _
  have hb : Within num S b := hbdef ▸ w.within.update (w.within j' (by omega) (by omega))
  obtain ⟨i', hup, hii, hij', hfront, hstop⟩ :=
    scanUp_stops h hb hp (by omega : j' < num) fuel i (by omega) (by omega) (by omega)
  rw [← hbi] at hlow
  have hmore : i < j' → i < i' := by
    intro hlt
    by_contra hle
    have heq : i' = i := by omega
    rw [heq] at hstop
    exact hstop hlt hlow
  -- And to `i'`.
  obtain ⟨c, hcdef⟩ : ∃ c, c = Function.update b j' (b i') := ⟨_, rfl⟩
  have hcm : ∀ m, m ≠ j' → c m = b m := fun m hm => hcdef ▸ Function.update_of_ne hm _ _
  have hcj : c j' = b i' := hcdef ▸ Function.update_self _ _ _
  have hc : Within num S c := hcdef ▸ hb.update (hb i' (by omega) (by omega))
  have hrun : fillHoles t size num cmp seen fuel a p i j = some (c, i', j') := by
    simp only [fillHoles, hdown, Option.bind_eq_bind, Option.bind_some,
      get_index h w.within (by omega : 0 ≤ j') (by omega),
      put_index h w.within (w.within j' (by omega) (by omega)) (by omega : 0 ≤ i) (by omega), ← hbdef]
    simp only [hup, Option.bind_some, get_index h hb (by omega : 0 ≤ i') (by omega),
      put_index h hb (hb i' (by omega) (by omega)) (by omega : 0 ≤ j') (by omega), ← hcdef]
    rfl
  refine ⟨c, i', j', hrun, ⟨?_, hc, by omega, by omega, by omega, ?_, ?_, ?_⟩, by omega⟩
  · have hfirst : Rearranged lo hi (Function.update a i p) (Function.update b j' p) :=
      hbdef ▸ Rearranged.hole_move p hleft (by omega)
    have hsecond : Rearranged lo hi (Function.update b j' p) (Function.update c i' p) :=
      hcdef ▸ Rearranged.hole_move p (by omega) (by omega)
    exact (w.moved.trans hfirst).trans hsecond
  · intro m hm hmi
    by_cases hmj : m = j'
    · -- Only the element right in front of the hole is both.
      subst hmj
      have heq : i' = i := by omega
      rw [hcj, heq]
      exact hlow
    · rw [hcm m hmj]
      by_cases hlt : m < i
      · rw [hbm m (by omega)]
        exact w.front m hm hlt
      · exact hfront m (by omega) hmi
  · intro m hjm hmh hmi
    have hne : m ≠ i := by
      rintro rfl
      omega
    rw [hcm m (by omega), hbm m hne]
    by_cases hmj : m ≤ j
    · exact habove m hjm hmj
    · exact w.behind m (by omega) hmh hne
  · rcases Int.lt_trichotomy i j' with hlt | heq | hgt
    · right
      have := hmore hlt
      omega
    · left
      have hsame : i' = i := by omega
      rw [hsame, heq, hcj, hsame]
      exact hlow
    · right
      omega

theorem partLoop_splits {orig : Records} (h : Ready t num size cmp seen S) (hp : S p) (hlo : 0 ≤ lo)
    (hhi : hi < num) :
    ∀ (fuel : Nat) a i j, Halfway num cmp S lo hi p orig a i j → j - i + 2 < fuel →
      ∃ a' i' j', partLoop t size num cmp seen fuel a p i j = some (a', i') ∧
        Halfway num cmp S lo hi p orig a' i' j' ∧ j' ≤ i' := by
  intro fuel
  induction fuel with
  | zero =>
    intro a i j w hfuel
    have := w.near
    omega
  | succ fuel ih =>
    intro a i j w hfuel
    unfold partLoop
    by_cases hij : i < j
    · obtain ⟨a', i', j', hround, w', hless⟩ := fillHoles_round fuel h hp hlo hhi w hij (by omega)
      simp only [if_pos hij, hround, Option.bind_eq_bind, Option.bind_some]
      exact ih a' i' j' w' (by omega)
    · exact ⟨a, i, j, if_neg hij, w, by omega⟩

theorem TotalPreorder.refl (h : TotalPreorder cmp) (x : Elem) : notAbove cmp x x := by
  simpa using h.total x x

theorem TotalPreorder.of_above (h : TotalPreorder cmp) {x y : Elem} (hxy : ¬ notAbove cmp x y) :
    notAbove cmp y x :=
  (h.total x y).resolve_left hxy

theorem partition_splits (fuel : Nat) (h : Ready t num size cmp seen S) (ha : Within num S a) (hlo : 0 ≤ lo)
    (hlt : lo < hi) (hhi : hi < num) (hfuel : hi - lo + 2 < fuel) :
    ∃ b i, partition t size num cmp seen fuel a lo hi = some (b, i) ∧ lo ≤ i ∧ i ≤ hi ∧
      Rearranged lo hi a b ∧ SplitAt (notAbove cmp) lo i hi b := by
  have hmid := pivot_offset h.inside hlo hlt hhi
  generalize hm : (lo + hi) / 2 = mid at hmid
  have hmidlo : 0 ≤ mid := by omega
  have hmidhi : mid < num := by omega
  have hp : S (a mid) := ha mid hmidlo hmidhi
  have hslo : S (a lo) := ha lo hlo (by omega)
  obtain ⟨a₁, ha₁⟩ : ∃ a₁, a₁ = Function.update a mid (a lo) := ⟨_, rfl⟩
  obtain ⟨a₂, ha₂⟩ : ∃ a₂, a₂ = Function.update a₁ lo (a mid) := ⟨_, rfl⟩
  have hw₁ : Within num S a₁ := ha₁ ▸ ha.update hslo
  have hw₂ : Within num S a₂ := ha₂ ▸ hw₁.update hp
  have hswap : Rearranged lo hi a a₂ := by
    have hmove := @Rearranged.hole_move _ lo hi a (a mid) mid lo (by omega) (by omega)
    rwa [Function.update_eq_self, ← ha₁, ← ha₂] at hmove
  have hfirst : a₂ lo = a mid := ha₂ ▸ Function.update_self _ _ _
  have hstart : Halfway num cmp S lo hi (a mid) a a₂ lo hi := by
    refine ⟨?_, hw₂, by omega, by omega, by omega, fun m _ _ => by omega, fun m _ _ => by omega, Or.inl ?_⟩
    · rwa [← hfirst, Function.update_eq_self]
    · rw [hfirst]
      exact h.order.refl _
  obtain ⟨c, i, j, hloop, w, hji⟩ := partLoop_splits h hp hlo hhi fuel a₂ lo hi hstart (by omega)
  have hleft := w.left
  refine ⟨Function.update c i (a mid), i, ?_, hleft.1, hleft.2, w.moved, ⟨?_, ?_⟩⟩
  · simp only [partition, get_eq h ha hmidlo hmidhi hmid, get_index h ha hlo (by omega), Option.bind_eq_bind,
      Option.bind_some, put_eq h ha hslo hmidlo hmidhi hmid, ← ha₁, put_index h hw₁ hp hlo (by omega), ← ha₂,
      hloop, put_index h w.within hp (by omega : 0 ≤ i) (by omega)]
    rfl
  · intro m hm hmi
    rw [Function.update_self, Function.update_of_ne (by omega)]
    exact w.front m hm hmi
  · intro m him hm
    rw [Function.update_self, Function.update_of_ne (by omega)]
    exact h.order.of_above (w.behind m (by omega) hm (by omega))

/-! ## The sort -/

theorem sort_sorts (h : Ready t num size cmp seen S) :
    ∀ (fuel : Nat) (a : Records) (lo hi : Int), Within num S a → 0 ≤ lo → lo ≤ hi + 1 → hi < num → hi - lo + 4 < fuel →
      ∃ b, sort t size num cmp seen fuel a lo hi = some b ∧ Rearranged lo hi a b ∧
        InOrder (notAbove cmp) lo hi b := by
  intro fuel
  induction fuel with
  | zero => intro a lo hi _ _ _ _ hfuel; omega
  | succ fuel ih =>
    intro a lo hi ha hlo hnear hhi hfuel
    unfold sort
    by_cases hlt : lo < hi
    · obtain ⟨b, i, hpart, hloi, hihi, hab, hsplit⟩ :=
        partition_splits fuel h ha hlo hlt hhi (by omega)
      have hb : Within num S b := ha.rearranged hlo hhi hab
      simp only [gt_iff_lt, if_pos hlt, hpart, Option.bind_eq_bind, Option.bind_some,
        index_kept h.inside (by omega : -1 ≤ i - 1) (by omega),
        index_kept h.inside (by omega : -1 ≤ i + 1) (by omega)]
      split_ifs with hsmaller
      · -- The part in front is the smaller one.
        obtain ⟨c, hc, hbc, hfront⟩ := ih b lo (i - 1) hb hlo (by omega) (by omega) (by omega)
        have hwc : Within num S c := hb.rearranged hlo (by omega) hbc
        obtain ⟨d, hd, hcd, hbehind⟩ := ih c (i + 1) hi hwc (by omega) (by omega) hhi (by omega)
        refine ⟨d, by rw [hc, Option.bind_some, hd], ?_, ?_⟩
        · exact hab.trans ((hbc.mono le_rfl (by omega)).trans (hcd.mono (by omega) le_rfl))
        · exact ((hsplit.rearranged_front hbc).rearranged_behind hcd).inOrder h.order.refl h.order.trans
            (hfront.rearranged hcd (by omega)) hbehind
      · obtain ⟨c, hc, hbc, hbehind⟩ := ih b (i + 1) hi hb (by omega) (by omega) hhi (by omega)
        have hwc : Within num S c := hb.rearranged (by omega) hhi hbc
        obtain ⟨d, hd, hcd, hfront⟩ := ih c lo (i - 1) hwc hlo (by omega) (by omega) (by omega)
        refine ⟨d, by rw [hc, Option.bind_some, hd], ?_, ?_⟩
        · exact hab.trans ((hbc.mono (by omega) le_rfl).trans (hcd.mono le_rfl (by omega)))
        · exact ((hsplit.rearranged_behind hbc).rearranged_front hcd).inOrder h.order.refl h.order.trans
            hfront (hbehind.rearranged hcd (by omega))
    · refine ⟨a, if_neg hlt, Rearranged.refl lo hi a, ?_⟩
      intro j k hj hjk hk
      have heq : j = k := by omega
      rw [heq]
      exact h.order.refl _

/-! ## qsort -/

/-- The elements the array starts with. -/
theorem ready {seen : Elem → Elem} (harr : IsArray t a num size) (hcmp : TotalPreorder cmp)
    (hin : PivotInside t num size)
    (htold : ∀ j k : Int, 0 ≤ j → j < num → 0 ≤ k → k < num →
      (notAbove cmp (a j) (seen (a k)) ↔ notAbove cmp (a j) (a k))) :
    Ready t num size cmp seen (fun x => ∃ k : Int, 0 ≤ k ∧ k < num ∧ a k = x) := by
  refine ⟨harr.bytes_fit, hin, ?_, ?_, hcmp⟩
  · rintro hsize x ⟨k, hk, hkn, rfl⟩
    have hlen := harr.sized k hk hkn
    rwa [hsize, List.length_eq_zero_iff] at hlen
  · rintro x y ⟨j, hj, hjn, rfl⟩ ⟨k, hk, hkn, rfl⟩
    exact htold j k hj hjn hk hkn

theorem sorts_of_ready {seen : Elem → Elem} (h : Ready t num size cmp seen S) (ha : Within num S a)
    (hrun : ∀ fuel, qsort t fuel a num size cmp =
      sort t size num cmp seen fuel a 0 (toInt t (num - 1))) : Sorts t a num size cmp := by
  refine ⟨num + 4, fun fuel hfuel => ?_⟩
  rw [hrun, index_kept h.inside (by omega) (by omega)]
  exact sort_sorts h fuel a 0 (num - 1) ha le_rfl (by omega) (by omega) (by omega)

/-- The order of the first bytes. -/
def byFirst : Cmp := fun x y => ((x.headD 0).toNat : Int) - (y.headD 0).toNat

theorem byFirst_preorder : TotalPreorder byFirst := by
  constructor
  · intro x y
    unfold notAbove byFirst
    omega
  · intro x y z
    unfold notAbove byFirst
    omega

end Fuzemsys.Libs.Qsort
