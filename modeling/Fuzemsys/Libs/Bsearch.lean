import Fuzemsys.Libs.QsortSorts

/-!
# bsearch

The search halves the range between two indices. `_bsearch` tells where it ended.
-/

namespace Fuzemsys.Libs.Qsort

open Fuzemsys.Lib

/-- The index of the element found, and `_bsearch`. -/
abbrev Sought := Option Int × Int

section
variable (t : Target) (size num : Nat) (cmp : Cmp) (base : Records) (key : Elem)

def bsearchLoop : Nat → Int → Int → Option Sought
  | 0, _, _ => none
  | fuel + 1, a, b =>
    if a ≤ b then do
      let c := PIVOT t a b
      let dir := cmp (← get t size num base c) key
      if dir ≠ 0 then
        if dir > 0 then bsearchLoop fuel a (toInt t (c - 1))
        else bsearchLoop fuel (toInt t (c + 1)) b
      else some (some c, c)
    else some (none, b)

def bsearch (fuel : Nat) : Option Sought := bsearchLoop t size num cmp base key fuel 0 (toInt t (num - 1))

end

/-! ## What it is for -/

/-- Smaller elements stand in front and larger ones behind. -/
structure Cut (cmp : Cmp) (key : Elem) (num : Nat) (a : Records) : Prop where
  above (j k : Int) (hj : 0 ≤ j) (hjk : j ≤ k) (hk : k < num) (h : 0 < cmp (a j) key) : 0 < cmp (a k) key
  below (j k : Int) (hj : 0 ≤ j) (hjk : j ≤ k) (hk : k < num) (h : cmp (a k) key < 0) : cmp (a j) key < 0

/-- The element is found, or `_bsearch` is the last one that is smaller. -/
inductive Found (cmp : Cmp) (key : Elem) (num : Nat) (a : Records) : Sought → Prop where
  | element (c : Int) (hc : 0 ≤ c) (hcn : c < num) (h : cmp (a c) key = 0) : Found cmp key num a (some c, c)
  | missing (b : Int) (hb : -1 ≤ b) (hbn : b < num) (hbelow : ∀ k, 0 ≤ k → k ≤ b → cmp (a k) key < 0)
    (habove : ∀ k, b < k → k < num → 0 < cmp (a k) key) : Found cmp key num a (none, b)

variable {t : Target} {size num : Nat} {cmp : Cmp} {a : Records} {key : Elem}

theorem Found.isSome {r : Sought} (h : Found cmp key num a r) :
    r.1.isSome ↔ ∃ k : Int, 0 ≤ k ∧ k < num ∧ cmp (a k) key = 0 := by
  cases h with
  | element c hc hcn h => exact ⟨fun _ => ⟨c, hc, hcn, h⟩, fun _ => rfl⟩
  | missing b hb hbn hbelow habove =>
    refine ⟨fun h => absurd h (by simp), ?_⟩
    rintro ⟨k, hk, hkn, hzero⟩
    rcases lt_or_ge b k with hkb | hkb
    · have := habove k hkb hkn
      omega
    · have := hbelow k hk hkb
      omega

/-- The elements of an array are where they should be. -/
theorem get_element (harr : IsArray t a num size) {k : Int} (hk : 0 ≤ k) (hkn : k < num) :
    get t size num a k = some (a k) := by
  rw [get]
  rcases Nat.eq_zero_or_pos size with rfl | hsize
  · have hempty (j : Int) (hj : 0 ≤ j) (hjn : j < num) : a j = [] := List.length_eq_zero_iff.1 (harr.sized j hj hjn)
    rw [slot_empty hk hkn, Option.map_some, hempty 0 le_rfl (by omega), hempty k hk hkn]
  · rw [slot_index hsize harr.bytes_fit hk hkn, Option.map_some]

/-- The middle lies in the range. -/
theorem middle {i j : Int} (hnum : num ≤ 2 ^ (t.bits - 2)) (hi : 0 ≤ i) (hij : i ≤ j) (hj : j < num) :
    PIVOT t i j = (i + j) / 2 := by
  have hhalf : (2 : Int) ^ (t.bits - 1) = 2 * 2 ^ (t.bits - 2) := by
    rcases t with ⟨_ | _, _⟩ <;> norm_num [Target.bits]
  have hnum' : (num : Int) ≤ 2 ^ (t.bits - 2) := by exact_mod_cast hnum
  rw [PIVOT, toInt_eq (by linarith) (by linarith), Int.shiftRight_eq_div_pow]
  rfl

/-- What is outside the range is known to be smaller or larger. -/
theorem bsearchLoop_found (harr : IsArray t a num size) (hnum : num ≤ 2 ^ (t.bits - 2)) (hcut : Cut cmp key num a)
    (fuel : Nat) (i j : Int) (hi : 0 ≤ i) (hij : i ≤ j + 1) (hj : j < num) (hfuel : j + 1 - i < fuel)
    (hbelow : ∀ k, 0 ≤ k → k < i → cmp (a k) key < 0) (habove : ∀ k, j < k → k < num → 0 < cmp (a k) key) :
    ∃ r, bsearchLoop t size num cmp a key fuel i j = some r ∧ Found cmp key num a r := by
  induction fuel generalizing i j with
  | zero => omega
  | succ fuel ih =>
    have hbits : (2 : Int) ^ (t.bits - 2) < 2 ^ (t.bits - 1) := by
      rcases t with ⟨_ | _, _⟩ <;> norm_num [Target.bits]
    have hnum' : (num : Int) ≤ 2 ^ (t.bits - 2) := by exact_mod_cast hnum
    unfold bsearchLoop
    split
    · next hle =>
      have hc : PIVOT t i j = (i + j) / 2 := middle hnum hi hle hj
      obtain ⟨c, hcdef⟩ : ∃ c, c = (i + j) / 2 := ⟨_, rfl⟩
      rw [← hcdef] at hc
      have hic : i ≤ c := by omega
      have hcj : c ≤ j := by omega
      have hdown : toInt t (c - 1) = c - 1 := toInt_eq (by linarith) (by linarith)
      have hup : toInt t (c + 1) = c + 1 := toInt_eq (by linarith) (by linarith)
      simp only [hc, get_element harr (by omega : 0 ≤ c) (by omega), hdown, hup, Option.bind_eq_bind, Option.bind_some]
      split
      · next hne =>
        split
        · next hgt =>
          refine ih i (c - 1) hi (by omega) (by omega) (by omega) hbelow fun k hk hkn => ?_
          exact hcut.above c k (by omega) (by omega) hkn hgt
        · next hle' =>
          refine ih (c + 1) j (by omega) (by omega) hj (by omega) (fun k hk hkc => ?_) habove
          exact hcut.below k c hk (by omega) (by omega) (by omega)
      · next heq => exact ⟨_, rfl, .element c (by omega) (by omega) (not_not.1 heq)⟩
    · next hgt =>
      exact ⟨_, rfl, .missing j (by omega) hj (fun k hk hkj => hbelow k hk (by omega)) habove⟩

/-- Every key that cuts the array is found if it is there. -/
theorem bsearch_found (harr : IsArray t a num size) (hnum : num ≤ 2 ^ (t.bits - 2)) (hcut : Cut cmp key num a)
    {fuel : Nat} (hfuel : num < fuel) : ∃ r, bsearch t size num cmp a key fuel = some r ∧ Found cmp key num a r := by
  have hbits : (2 : Int) ^ (t.bits - 2) < 2 ^ (t.bits - 1) := by
    rcases t with ⟨_ | _, _⟩ <;> norm_num [Target.bits]
  have hnum' : (num : Int) ≤ 2 ^ (t.bits - 2) := by exact_mod_cast hnum
  have hone : (1 : Int) ≤ 2 ^ (t.bits - 1) := one_le_pow₀ (by norm_num)
  unfold bsearch
  rw [toInt_eq (by linarith) (by linarith)]
  exact bsearchLoop_found harr hnum hcut fuel 0 (num - 1) le_rfl (by omega) (by omega) (by omega)
    (fun k hk hk' => by omega) fun k hk hk' => by omega

/-! ## After a sort -/

/-- An order with a sign of its own for each of two elements. -/
theorem cut_of_order (hcmp : TotalPreorder cmp) (hswap : ∀ x y, cmp x y < 0 ↔ 0 < cmp y x)
    (horder : InOrder (notAbove cmp) 0 (num - 1) a) : Cut cmp key num a where
  above j k hj hjk hk h := by
    by_contra hle
    have htrans := hcmp.trans _ _ key (horder j k hj hjk (by omega)) (Int.not_lt.1 hle)
    unfold notAbove at htrans
    omega
  below j k hj hjk hk h := by
    by_contra hge
    have hkey : notAbove cmp key (a j) := by
      have := hswap key (a j)
      unfold notAbove
      by_contra hlt
      have := (hswap (a j) key).2 (by omega)
      omega
    have htrans := hcmp.trans _ _ _ hkey (horder j k hj hjk (by omega))
    have := (hswap (a k) key).1 h
    unfold notAbove at htrans
    omega

theorem IsArray.rearranged {b : Records} (harr : IsArray t a num size) (hab : Rearranged 0 (num - 1) a b) :
    IsArray t b num size := by
  refine ⟨harr.num_fits, harr.bytes_fit, fun k hk hkn => ?_⟩
  obtain ⟨m, hm, hmn, hval⟩ := hab.inside hk (by omega)
  rw [hval]
  exact harr.sized m hm (by omega)

/-- What is found in the array is found in its rearrangement. -/
theorem found_rearranged {b : Records} (hab : Rearranged 0 (num - 1) a b) (P : Elem → Prop) :
    (∃ k : Int, 0 ≤ k ∧ k < num ∧ P (b k)) ↔ ∃ k : Int, 0 ≤ k ∧ k < num ∧ P (a k) := by
  have hone {a b : Records} (hab : Rearranged 0 (num - 1) a b) (h : ∃ k : Int, 0 ≤ k ∧ k < num ∧ P (b k)) :
      ∃ k : Int, 0 ≤ k ∧ k < num ∧ P (a k) := by
    obtain ⟨k, hk, hkn, hP⟩ := h
    obtain ⟨m, hm, hmn, hval⟩ := hab.inside hk (by omega)
    exact ⟨m, hm, by omega, hval ▸ hP⟩
  exact ⟨hone hab, hone hab.symm⟩

/-- A search with the comparison of the sort finds a key exactly if the array had it before. -/
theorem search_after_sort (harr : IsArray t a num size) (hnum : num ≤ 2 ^ (t.bits - 2)) (hcmp : TotalPreorder cmp)
    (hswap : ∀ x y, cmp x y < 0 ↔ 0 < cmp y x) (hsorts : Sorts t a num size cmp) :
    ∃ enough, ∀ fuel, enough ≤ fuel → ∃ b, qsort t fuel a num size cmp = some b ∧
      ∀ key, ∃ r, bsearch t size num cmp b key fuel = some r ∧ Found cmp key num b r ∧
        (r.1.isSome ↔ ∃ k : Int, 0 ≤ k ∧ k < num ∧ cmp (a k) key = 0) := by
  obtain ⟨enough, hrun⟩ := hsorts
  refine ⟨enough + num + 1, fun fuel hfuel => ?_⟩
  obtain ⟨b, hb, hab, horder⟩ := hrun fuel (by omega)
  refine ⟨b, hb, fun key => ?_⟩
  have hcut : Cut cmp key num b := cut_of_order hcmp hswap horder
  obtain ⟨r, hr, hfound⟩ := bsearch_found (harr.rearranged hab) hnum hcut (by omega : num < fuel)
  exact ⟨r, hr, hfound, hfound.isSome.trans (found_rearranged hab fun x => cmp x key = 0)⟩

theorem search_two :
    ∃ enough, ∀ fuel, enough ≤ fuel →
      ∃ b, qsort ⟨false, true⟩ fuel (fun k => if k = 0 then [2] else [1]) 2 1 byFirst = some b ∧
        ∀ key, ∃ r, bsearch ⟨false, true⟩ 1 2 byFirst b key fuel = some r ∧ Found byFirst key 2 b r ∧
          (r.1.isSome ↔ ∃ k : Int, 0 ≤ k ∧ k < (2 : Nat) ∧ byFirst (if k = 0 then [2] else [1]) key = 0) := by
  have harr : IsArray ⟨false, true⟩ (fun k => if k = 0 then [2] else [1]) 2 1 := by
    refine ⟨by decide, by decide, fun k _ _ => ?_⟩
    split_ifs <;> rfl
  have hready : Ready ⟨false, true⟩ 2 1 byFirst id
      (fun x => ∃ k : Int, 0 ≤ k ∧ k < (2 : Nat) ∧ (if k = 0 then [2] else [1]) = x) :=
    ready harr byFirst_preorder ⟨by decide, Or.inr (by decide)⟩ (by simp)
  have hsorts : Sorts ⟨false, true⟩ (fun k => if k = 0 then [2] else [1]) 2 1 byFirst := by
    refine sorts_of_ready hready (fun k hk hkn => ⟨k, hk, hkn, rfl⟩) fun fuel => ?_
    simp [qsort, _nqsort]
  refine search_after_sort harr (by decide) byFirst_preorder (fun x y => ?_) hsorts
  unfold byFirst
  omega

end Fuzemsys.Libs.Qsort
