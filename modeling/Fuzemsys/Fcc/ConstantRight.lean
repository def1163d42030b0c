import Fuzemsys.Fcc.ConstantRead

/-!
# Which integer constants are right

The value and the type of a constant below 2^32, and the errors for one that is not.
-/

open Fuzemsys.Lib

namespace Fuzemsys.Fcc

variable {h : Host} {c : Byte} {ds ls rest : List Byte} {sum : BitVec 32} {ex : BitVec h.intBits}

/-! ## Digits -/

theorem isdigit_bounds (hc : isdigit c = true) : 0x30 ≤ c.toNat ∧ c.toNat ≤ 0x39 := by
  simpa [isdigit, BitVec.le_def] using hc

theorem digit_toNat (hc : isdigit c = true) : (digit c).toNat = digitValue c ∧ digitValue c < 10 := by
  have hbounds := isdigit_bounds hc
  unfold digit digitValue
  rw [if_pos (by omega), BitVec.toNat_sub, BitVec.toNat_setWidth, show (0x30 : BitVec 32).toNat = 0x30 from rfl]
  omega

theorem unhex_toNat (hc : isxdigit c = true) : ((unhex c).setWidth 32).toNat = digitValue c ∧ digitValue c < 16 := by
  simp only [isxdigit, isdigit, Bool.or_eq_true, Bool.and_eq_true, decide_eq_true_eq, BitVec.le_def] at hc
  simp only [BitVec.reduceToNat] at hc
  have hup : (toupper c).toNat = if 0x61 ≤ c.toNat ∧ c.toNat ≤ 0x7A then c.toNat - 0x20 else c.toNat := by
    unfold toupper
    simp only [BitVec.le_def, BitVec.reduceToNat]
    split
    · next hlow =>
      rw [BitVec.toNat_sub]
      simp only [BitVec.reduceToNat]
      omega
    · rfl
  have hsub : ((toupper c).setWidth 16 - 0x30 : BitVec 16).toNat = (toupper c).toNat - 0x30 := by
    rw [BitVec.toNat_sub, BitVec.toNat_setWidth]
    simp only [BitVec.reduceToNat]
    split at hup <;> omega
  unfold unhex digitValue
  simp only [gt_iff_lt, BitVec.lt_def, hsub]
  simp only [BitVec.reduceToNat]
  split
  · next hbig =>
    rw [BitVec.toNat_setWidth, BitVec.toNat_sub, hsub]
    simp only [BitVec.reduceToNat]
    split at hup <;> (split <;> [omega; split <;> omega])
  · next hsmall =>
    rw [BitVec.toNat_setWidth, hsub]
    split at hup <;> (split <;> [omega; split <;> omega])

theorem le_digitsValue {base : Nat} (hbase : 0 < base) (v : Nat) (ds : List Byte) : v ≤ digitsValue base v ds := by
  induction ds generalizing v with
  | nil => exact le_rfl
  | cons d ds ih =>
    refine le_trans ?_ (ih (v * base + digitValue d))
    exact (Nat.le_mul_of_pos_right v hbase).trans (Nat.le_add_right _ _)

theorem digitsValue_cons (base v : Nat) (d : Byte) (ds : List Byte) :
    digitsValue base v (d :: ds) = digitsValue base (v * base + digitValue d) ds := rfl

/-! ## Decimal -/

theorem toNat_times_ten (hc : isdigit c = true) :
    (sum * 10 + digit c).toNat = (sum.toNat * 10 + digitValue c) % 2 ^ 32 := by
  rw [BitVec.toNat_add, BitVec.toNat_mul, (digit_toNat hc).1]
  simp only [BitVec.reduceToNat]
  omega

theorem fitDigit_eq (c sum : BitVec 32) (ex : BitVec h.intBits) :
    fitDigit c sum ex = (fitted c sum, ex + BitVec.ofNat h.intBits (halvings c sum)) := by
  fun_induction fitDigit c sum ex with
  | case1 sum ex hwrap ih =>
    rw [ih, fitted.eq_def c sum, dif_pos hwrap, halvings.eq_def c sum, dif_pos hwrap, BitVec.ofNat_add,
      BitVec.add_assoc, BitVec.add_comm 1]
    rfl
  | case2 sum ex hwrap =>
    rw [fitted, dif_neg hwrap, halvings, dif_neg hwrap]
    simp

theorem decFold_ex (ds : List Byte) (sum : BitVec 32) (ex : BitVec h.intBits) :
    (decFold (sum, ex) ds).2 = ex + BitVec.ofNat h.intBits (allHalvings sum ds) := by
  induction ds generalizing sum ex with
  | nil => simp [decFold, allHalvings]
  | cons d ds ih =>
    have ih := ih (fitted (digit d) sum) (ex + BitVec.ofNat h.intBits (halvings (digit d) sum))
    unfold decFold at ih ⊢
    rw [List.foldl_cons, fitDigit_eq, ih, allHalvings, BitVec.ofNat_add, BitVec.add_assoc]

theorem decFold_exact (hds : ∀ d ∈ ds, isdigit d = true) (hlt : digitsValue 10 sum.toNat ds < 2 ^ 32) :
    decFold (sum, ex) ds = (BitVec.ofNat 32 (digitsValue 10 sum.toNat ds), ex) := by
  induction ds generalizing sum with
  | nil => simp [decFold, digitsValue]
  | cons d ds ih =>
    have hd := hds d List.mem_cons_self
    rw [digitsValue_cons] at hlt ⊢
    have hle := (le_digitsValue (by decide) (sum.toNat * 10 + digitValue d) ds).trans_lt hlt
    have hnext : (sum * 10 + digit d).toNat = sum.toNat * 10 + digitValue d := by
      rw [toNat_times_ten hd, Nat.mod_eq_of_lt hle]
    have hfit : fitDigit (digit d) sum ex = (sum * 10 + digit d, ex) := by
      rw [fitDigit, dif_neg]
      rw [BitVec.lt_def, hnext]
      omega
    unfold decFold
    rw [List.foldl_cons, hfit, ← hnext]
    rw [← hnext] at hlt
    exact ih (fun d hd => hds d (List.mem_cons_of_mem _ hd)) hlt

theorem falls_iff_halvings (hds : ∀ d ∈ ds, isdigit d = true) : falls 10 sum.toNat ds ↔ allHalvings sum ds ≠ 0 := by
  induction ds generalizing sum with
  | nil => simp [falls, allHalvings]
  | cons d ds ih =>
    have hd := hds d List.mem_cons_self
    have hwrap : sum * 10 + digit d < sum ↔ (sum.toNat * 10 + digitValue d) % 2 ^ 32 < sum.toNat := by
      rw [BitVec.lt_def, toNat_times_ten hd]
    unfold falls allHalvings
    by_cases hlt : sum * 10 + digit d < sum
    · rw [halvings, dif_pos hlt]
      simp only [hwrap.mp hlt, true_or, true_iff]
      omega
    · have ih := @ih (sum * 10 + digit d) fun d hd => hds d (List.mem_cons_of_mem _ hd)
      rw [toNat_times_ten hd] at ih
      rw [halvings, dif_neg hlt, fitted, dif_neg hlt, Nat.zero_add]
      simp only [mt hwrap.mpr hlt, false_or]
      exact ih

/-! ## Hexadecimal -/

theorem toNat_shl_four (sum : BitVec 32) : (sum <<< 4).toNat = sum.toNat * 16 % 2 ^ 32 := by
  rw [BitVec.toNat_shiftLeft, Nat.shiftLeft_eq]

theorem toNat_next_hex (hc : isxdigit c = true) :
    (sum <<< 4 + (unhex c).setWidth 32).toNat = sum.toNat * 16 % 2 ^ 32 + digitValue c := by
  obtain ⟨hdigit, hlt⟩ := unhex_toNat hc
  rw [BitVec.toNat_add, toNat_shl_four, hdigit]
  omega

theorem hexFold_exact (hds : ∀ d ∈ ds, isxdigit d = true) (hlt : digitsValue 16 sum.toNat ds < 2 ^ 32) :
    hexFold (sum, ex) ds = (BitVec.ofNat 32 (digitsValue 16 sum.toNat ds), ex) := by
  induction ds generalizing sum with
  | nil => simp [hexFold, digitsValue]
  | cons d ds ih =>
    have hd := hds d List.mem_cons_self
    rw [digitsValue_cons] at hlt ⊢
    have hle := (le_digitsValue (by decide) (sum.toNat * 16 + digitValue d) ds).trans_lt hlt
    have hnext : (sum <<< 4 + (unhex d).setWidth 32).toNat = sum.toNat * 16 + digitValue d := by
      rw [toNat_next_hex hd, Nat.mod_eq_of_lt (by omega)]
    have hfit : sum <<< 4 ≥ sum := by
      rw [ge_iff_le, BitVec.le_def, toNat_shl_four]
      omega
    unfold hexFold
    rw [List.foldl_cons]
    simp only [if_pos hfit]
    rw [← hnext] at hlt ⊢
    exact ih (fun d hd => hds d (List.mem_cons_of_mem _ hd)) hlt

/-- From the first digit that wraps on nothing fits. -/
theorem hexFold_stuck (hwrap : ¬sum <<< 4 ≥ sum) (ds : List Byte) (ex : BitVec h.intBits) :
    (hexFold (sum, ex) ds).2 = ex + BitVec.ofNat h.intBits (4 * ds.length) := by
  induction ds generalizing ex with
  | nil => simp [hexFold]
  | cons d ds ih =>
    have ih := ih (ex + 4)
    unfold hexFold at ih ⊢
    rw [List.foldl_cons]
    simp only [if_neg hwrap]
    rw [ih, List.length_cons, Nat.mul_succ, Nat.add_comm, BitVec.ofNat_add, BitVec.add_assoc]
    rfl

theorem hexFold_ex (hds : ∀ d ∈ ds, isxdigit d = true) :
    (hexFold (sum, ex) ds).2 = ex + BitVec.ofNat h.intBits (4 * skipped sum.toNat ds) := by
  induction ds generalizing sum with
  | nil => simp [hexFold, skipped]
  | cons d ds ih =>
    have hd := hds d List.mem_cons_self
    have hfit : sum <<< 4 ≥ sum ↔ ¬sum.toNat * 16 % 2 ^ 32 < sum.toNat := by
      rw [ge_iff_le, BitVec.le_def, toNat_shl_four, Nat.not_lt]
    by_cases hwrap : sum <<< 4 ≥ sum
    · have ih := @ih (sum <<< 4 + (unhex d).setWidth 32) fun d hd => hds d (List.mem_cons_of_mem _ hd)
      rw [toNat_next_hex hd] at ih
      unfold hexFold at ih ⊢
      rw [List.foldl_cons, skipped, if_neg (hfit.mp hwrap)]
      simp only [if_pos hwrap]
      exact ih
    · rw [hexFold_stuck hwrap, skipped, if_pos (not_not.mp (mt hfit.mpr hwrap)), List.length_cons]

/-! ## Octal -/

theorem toNat_next_octal (hc : isoctal c = true) :
    (sum <<< 3 + digit c).toNat = (sum.toNat * 8 + digitValue c) % 2 ^ 32 := by
  rw [BitVec.toNat_add, BitVec.toNat_shiftLeft, Nat.shiftLeft_eq, (digit_toNat (isdigit_of_isoctal hc)).1]
  omega

theorem octFold_exact (hds : ∀ d ∈ ds, isoctal d = true) (hlt : digitsValue 8 sum.toNat ds < 2 ^ 32) :
    octFold sum ds = BitVec.ofNat 32 (digitsValue 8 sum.toNat ds) := by
  induction ds generalizing sum with
  | nil => simp [octFold, digitsValue]
  | cons d ds ih =>
    have hd := hds d List.mem_cons_self
    rw [digitsValue_cons] at hlt ⊢
    have hle := (le_digitsValue (by decide) (sum.toNat * 8 + digitValue d) ds).trans_lt hlt
    have hnext : (sum <<< 3 + digit d).toNat = sum.toNat * 8 + digitValue d := by
      rw [toNat_next_octal hd, Nat.mod_eq_of_lt hle]
    unfold octFold
    rw [List.foldl_cons]
    rw [← hnext] at hlt ⊢
    exact ih (fun d hd => hds d (List.mem_cons_of_mem _ hd)) hlt

theorem octFalls_pos (hds : ∀ d ∈ ds, isoctal d = true) : 0 < octFalls sum ds ↔ falls 8 sum.toNat ds := by
  induction ds generalizing sum with
  | nil => simp [octFalls, falls]
  | cons d ds ih =>
    have hd := hds d List.mem_cons_self
    have ih := @ih (sum <<< 3 + digit d) fun d hd => hds d (List.mem_cons_of_mem _ hd)
    rw [toNat_next_octal hd] at ih
    simp only [octFalls, falls, BitVec.lt_def, toNat_next_octal hd]
    split
    · next hlt => exact iff_of_true (Nat.succ_pos _) (.inl hlt)
    · next hlt =>
      simp only [hlt, false_or]
      exact ih

/-! ## Suffixes -/

theorem letter_upper (f : Suffix) (hc : toupper c = 0x55 ∨ toupper c = 0x4C) :
    f.letter c = if toupper c = 0x55 ∧ !f.unsigned then some { f with unsigned := true }
      else if toupper c = 0x4C ∧ !f.long then some { f with long := true } else none := by
  have hf : toupper c ≠ 0x46 := by rcases hc with hc | hc <;> rw [hc] <;> decide
  unfold Suffix.letter
  dsimp only
  rw [if_neg fun h => hf h.1]

theorem suffix_flags (hls : IsSuffix ls) :
    ls.foldlM Suffix.letter ⟨false, false, false⟩ =
      some ⟨false, (ls.map toupper).contains 0x55, (ls.map toupper).contains 0x4C⟩ := by
  simp only [IsSuffix, List.mem_cons, List.not_mem_nil, or_false, List.map_eq_nil_iff, List.map_eq_cons_iff] at hls
  rcases hls with rfl | ⟨a, _, rfl, ha, rfl⟩ | ⟨a, _, rfl, ha, rfl⟩ | ⟨a, _, rfl, ha, b, _, rfl, hb, rfl⟩ |
    ⟨a, _, rfl, ha, b, _, rfl, hb, rfl⟩
  · rfl
  · simp [letter_upper, ha]
  · simp [letter_upper, ha]
  · simp [letter_upper, ha, hb]
  · simp [letter_upper, ha, hb]

/-! ## Constants -/

/-- Not a letter, a digit, or a point. -/
def EndsNumber (rest : List Byte) : Prop :=
  isdigit (rest.headD 0) = false ∧ rest.headD 0 ≠ 0x2E ∧
    ¬(0x41 ≤ toupper (rest.headD 0) ∧ toupper (rest.headD 0) ≤ 0x5A)

namespace Constant

variable {k : Constant} {s : Source h}

def flags (k : Constant) : Suffix := ⟨false, k.isUnsigned, k.isLong⟩

theorem integerType_ofNat (f : Suffix) {v : Nat} (hv : v < 2 ^ 32) :
    f.integerType (BitVec.ofNat 32 v) =
      if f.long = false ∧ v ≤ 0xFFFF then if f.unsigned = false ∧ v ≤ 0x7FFF then T_INTVAL else T_UINTVAL
      else if f.unsigned = false ∧ v ≤ 0x7FFFFFFF then T_LONGVAL else T_ULONGVAL := by
  have hle (m : Nat) (hm : m < 2 ^ 32) : BitVec.ofNat 32 v ≤ BitVec.ofNat 32 m ↔ v ≤ m := by
    rw [BitVec.le_def, BitVec.toNat_ofNat, BitVec.toNat_ofNat, Nat.mod_eq_of_lt hv, Nat.mod_eq_of_lt hm]
  have hint : BitVec.ofNat 32 v ≤ 32767 ↔ v ≤ 0x7FFF := hle 0x7FFF (by decide)
  have huint : BitVec.ofNat 32 v ≤ 65535 ↔ v ≤ 0xFFFF := hle 0xFFFF (by decide)
  have hlong : BitVec.ofNat 32 v ≤ 2147483647 ↔ v ≤ 0x7FFFFFFF := hle 0x7FFFFFFF (by decide)
  unfold Suffix.integerType
  simp only [hint, huint, hlong]
  cases f.long <;> cases f.unsigned <;> simp
  split <;> [rfl; split <;> [omega; rfl]]

/-- Only a decimal constant without a suffix may not be unsigned. -/
def WrongType (k : Constant) : Prop :=
  k.radix = .decimal ∧ k.suffix = [] ∧ 0x7FFF < k.value ∧ k.value ≤ 0xFFFF

theorem suffix_nil_iff (k : Constant) : k.suffix = [] ↔ k.isUnsigned = false ∧ k.isLong = false := by
  have hls := k.suffix_right
  simp only [IsSuffix, List.mem_cons, List.not_mem_nil, or_false] at hls
  unfold isUnsigned isLong
  rcases hls with hls | hls | hls | hls | hls <;> rw [hls]
  · simp only [List.map_eq_nil_iff] at hls
    simp [hls]
  all_goals
    constructor
    · intro hnil
      simp [hnil] at hls
    · simp

/-- The type that `tokenize_numeric` gives is the first of the list but for these. -/
theorem type_iff (k : Constant) (hlt : k.value < 2 ^ 32) :
    k.type = some (k.flags.integerType (BitVec.ofNat 32 k.value)) ↔ ¬k.WrongType := by
  have hmax : maxValue T_INTVAL = 0x7FFF ∧ maxValue T_UINTVAL = 0xFFFF ∧ maxValue T_LONGVAL = 0x7FFFFFFF ∧
      maxValue T_ULONGVAL = 0xFFFFFFFF := by decide
  obtain ⟨hint, huint, hlong, hulong⟩ := hmax
  rw [integerType_ofNat _ hlt]
  unfold WrongType
  rw [suffix_nil_iff]
  unfold type types flags
  generalize k.value = v at hlt ⊢
  have htop : v ≤ 0xFFFFFFFF := by omega
  have hne : T_UINTVAL ≠ T_LONGVAL := by decide
  obtain hv | ⟨hv, hv', hv''⟩ | ⟨hv, hv', hv''⟩ | ⟨hv, hv', hv''⟩ :
      (v ≤ 0x7FFF ∧ v ≤ 0xFFFF ∧ v ≤ 0x7FFFFFFF) ∨ (¬v ≤ 0x7FFF ∧ v ≤ 0xFFFF ∧ v ≤ 0x7FFFFFFF) ∨
        (¬v ≤ 0x7FFF ∧ ¬v ≤ 0xFFFF ∧ v ≤ 0x7FFFFFFF) ∨ (¬v ≤ 0x7FFF ∧ ¬v ≤ 0xFFFF ∧ ¬v ≤ 0x7FFFFFFF) := by omega
  all_goals
    cases k.isUnsigned <;> cases k.isLong <;> by_cases hradix : k.radix = .decimal <;>
      simp [hne.symm, *]

/-! ## The character after the digits -/

/-- It goes on with no digits, point or exponent. -/
def Follows (c : Byte) : Prop :=
  isxdigit c = false ∧ c ≠ 0x2E ∧ toupper c ≠ 0x45 ∧ toupper c ≠ 0x50 ∧ toupper c ≠ 0x58

theorem toupper_of_isxdigit (hc : isxdigit c = true) :
    isdigit c = true ∨ 0x41 ≤ toupper c ∧ toupper c ≤ 0x46 := by
  simp only [isxdigit, Bool.or_eq_true, Bool.and_eq_true, decide_eq_true_eq] at hc
  unfold toupper
  simp only [BitVec.le_def, BitVec.reduceToNat] at hc ⊢
  obtain (hc | hc) | hc := hc
  · exact .inl hc
  · refine .inr ?_
    rw [if_neg (by omega)]
    exact hc
  · refine .inr ?_
    rw [if_pos (by omega), BitVec.toNat_sub]
    simp only [BitVec.reduceToNat]
    omega

theorem follows_of_ends (hrest : EndsNumber rest) : Follows (rest.headD 0) := by
  obtain ⟨hdigit, hpoint, hletter⟩ := hrest
  refine ⟨?_, hpoint, ?_, ?_, ?_⟩
  · refine Bool.eq_false_iff.mpr fun hx => ?_
    obtain hd | ⟨hlow, hhigh⟩ := toupper_of_isxdigit hx
    · exact absurd hd (by simp only [hdigit]; decide)
    · exact hletter ⟨hlow, BitVec.le_trans hhigh (show (0x46 : Byte) ≤ 0x5A by decide)⟩
  all_goals
    intro hup
    rw [hup] at hletter
    exact hletter (by decide)

theorem follows_suffix (k : Constant) (hrest : EndsNumber rest) : Follows ((k.suffix ++ rest).headD 0) := by
  have hls := k.suffix_right
  cases hsuffix : k.suffix with
  | nil => exact follows_of_ends hrest
  | cons l ls =>
    have hl : toupper l = 0x55 ∨ toupper l = 0x4C := by
      rw [hsuffix, IsSuffix, List.map_cons] at hls
      simp only [List.mem_cons, List.cons.injEq, List.not_mem_nil, or_false, reduceCtorEq, false_or] at hls
      rcases hls with ⟨hl, -⟩ | ⟨hl, -⟩ | ⟨hl, -⟩ | ⟨hl, -⟩ <;> rw [hl] <;> decide
    refine ⟨Bool.eq_false_iff.mpr fun hx => ?_, ?_, ?_, ?_, ?_⟩
    · change isxdigit l = true at hx
      obtain hd | ⟨-, hhigh⟩ := toupper_of_isxdigit hx
      · have hbounds := isdigit_bounds hd
        have hsame : toupper l = l := if_neg fun hlow => by
          have := BitVec.le_def.mp hlow.1
          simp only [BitVec.reduceToNat] at this
          omega
        rw [hsame] at hl
        rcases hl with rfl | rfl <;> exact absurd hd (by decide)
      · rcases hl with hl | hl <;> rw [hl] at hhigh <;> exact absurd hhigh (by decide)
    · rintro rfl
      exact absurd hl (by decide)
    all_goals
      change toupper l ≠ _
      rcases hl with hl | hl <;> rw [hl] <;> decide

theorem Follows.not_e (hc : Follows c) : ¬(c = 0x45 ∨ c = 0x65) := by
  rintro (rfl | rfl) <;> exact absurd hc.2.2.1 (by decide)

theorem Follows.not_p (hc : Follows c) : ¬(c = 0x50 ∨ c = 0x70) := by
  rintro (rfl | rfl) <;> exact absurd hc.2.2.2.1 (by decide)

theorem Follows.not_digit (hc : Follows c) : isdigit c = false :=
  Bool.eq_false_iff.mpr fun hd => absurd (isxdigit_of_isdigit hd) (by simp only [hc.1]; decide)

theorem Follows.not_octal (hc : Follows c) : isoctal c = false :=
  Bool.eq_false_iff.mpr fun hd => absurd (isdigit_of_isoctal hd) (by simp only [hc.not_digit]; decide)

theorem letter_end (f : Suffix) (hrest : EndsNumber rest) : f.letter (rest.headD 0) = none := by
  obtain ⟨-, -, hletter⟩ := hrest
  have hup (l : Byte) (hl : 0x41 ≤ l ∧ l ≤ 0x5A) : toupper (rest.headD 0) ≠ l := by
    rintro rfl
    exact hletter hl
  unfold Suffix.letter
  dsimp only
  rw [if_neg fun h => hup _ (by decide) h.1, if_neg fun h => hup _ (by decide) h.1,
    if_neg fun h => hup _ (by decide) h.1]

end Constant

end Fuzemsys.Fcc
