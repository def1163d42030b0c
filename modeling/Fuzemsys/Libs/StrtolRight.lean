import Mathlib.Tactic.Ring
import Fuzemsys.Libs.Strtol

/-!
# When strtol and strtoul are right
-/

namespace Fuzemsys.Libs.Strtol

/-! ## Digits -/

/-- The code's test and arithmetic on a character are those of a digit. -/
theorem char_digit (c : Byte) : (isascii c && isalnum c) = (digitOf c).isSome ∧
    ∀ d ∈ digitOf c, (chOf c).toNat = d ∧ d ≤ 35 := by
  revert c
  decide +kernel

/-- The numbers that the loop goes through. -/
def conv (base : Nat) : List Nat → BitVec 32 → Bool → BitVec 32 × Bool
  | [], number, overflow => (number, overflow)
  | d :: ds, number, overflow =>
    let newv := number * BitVec.ofNat 32 base + BitVec.ofNat 32 d
    conv base ds newv (overflow || newv < number)

theorem conv_append (base : Nat) (ds es : List Nat) (n : BitVec 32) (o : Bool) :
    conv base (ds ++ es) n o = conv base es (conv base ds n o).1 (conv base ds n o).2 := by
  induction ds generalizing n o with
  | nil => rfl
  | cons d ds ih => simp only [List.cons_append, conv, ih]

/-- The loop takes every digit up to the base itself. -/
theorem convLoop_eq (base : Nat) (s : List Byte) (n : BitVec 32) (o : Bool) :
    convLoop base s n o =
      ((conv base ((s.takeWhile (isDigitBelow (base + 1))).filterMap digitOf) n o).1,
        (conv base ((s.takeWhile (isDigitBelow (base + 1))).filterMap digitOf) n o).2,
        s.dropWhile (isDigitBelow (base + 1))) := by
  induction s generalizing n o with
  | nil => rfl
  | cons c s ih =>
    obtain ⟨halnum, hdigit⟩ := char_digit c
    rw [convLoop, halnum]
    rcases hc : digitOf c with _ | d
    · have hb : isDigitBelow (base + 1) c = false := by simp [isDigitBelow, hc]
      simp [hb, conv]
    · obtain ⟨hch, -⟩ := hdigit d hc
      simp only [Option.isSome_some, if_true, hch]
      by_cases hd : d ≤ base
      · have hb : isDigitBelow (base + 1) c = true := by simp [isDigitBelow, hc]; omega
        have hset : (chOf c).setWidth 32 = BitVec.ofNat 32 d := by
          rw [← hch]
          exact (BitVec.ofNat_toNat ..).symm
        rw [if_neg (by omega), ih, List.takeWhile_cons_of_pos hb, List.dropWhile_cons_of_pos hb,
          List.filterMap_cons_some hc, conv, hset]
        rfl
      · have hb : isDigitBelow (base + 1) c = false := by simp [isDigitBelow, hc]; omega
        rw [if_pos (by omega)]
        simp [hb, conv]

theorem le_valueOf (base : Nat) (hbase : 1 ≤ base) (ds : List Nat) (n : Nat) :
    n ≤ ds.foldl (fun n d => n * base + d) n := by
  induction ds generalizing n with
  | nil => exact Nat.le_refl n
  | cons d ds ih =>
    calc n ≤ n * base := Nat.le_mul_of_pos_right n hbase
      _ ≤ n * base + d := Nat.le_add_right _ d
      _ ≤ _ := ih _

theorem ofNat_step (base d n : Nat) :
    BitVec.ofNat 32 n * BitVec.ofNat 32 base + BitVec.ofNat 32 d = BitVec.ofNat 32 (n * base + d) := by
  rw [BitVec.ofNat_add, BitVec.ofNat_mul]

/-- A value within 32 bits is computed exactly. -/
theorem conv_exact (base : Nat) (hbase : 1 ≤ base) (ds : List Nat) (n : Nat) (o : Bool)
    (h : ds.foldl (fun n d => n * base + d) n < 2 ^ 32) :
    conv base ds (BitVec.ofNat 32 n) o = (BitVec.ofNat 32 (ds.foldl (fun n d => n * base + d) n), o) := by
  induction ds generalizing n o with
  | nil => rfl
  | cons d ds ih =>
    rw [List.foldl_cons] at h ⊢
    have hnext := le_valueOf base hbase ds (n * base + d)
    have hn : n ≤ n * base + d := Nat.le_add_right_of_le (Nat.le_mul_of_pos_right n hbase)
    have hlt : ¬ BitVec.ofNat 32 (n * base + d) < BitVec.ofNat 32 n := by
      rw [BitVec.lt_def, BitVec.toNat_ofNat, BitVec.toNat_ofNat, Nat.mod_eq_of_lt (by omega),
        Nat.mod_eq_of_lt (by omega)]
      omega
    rw [conv, ofNat_step, ih _ _ h]
    simp [hlt]

/-- Without an overflow seen, the number has never become smaller. -/
theorem conv_mono (base : Nat) (ds : List Nat) (n : BitVec 32) (o : Bool)
    (h : (conv base ds n o).2 = false) : o = false ∧ n.toNat ≤ (conv base ds n o).1.toNat := by
  induction ds generalizing n o with
  | nil => exact ⟨h, Nat.le_refl _⟩
  | cons d ds ih =>
    rw [conv] at h ⊢
    obtain ⟨ho, hle⟩ := ih _ _ h
    simp only [Bool.or_eq_false_iff, decide_eq_false_iff_not, BitVec.lt_def, Nat.not_lt] at ho
    exact ⟨ho.1, Nat.le_trans ho.2 hle⟩

theorem step_fixed_iff (base n d : Nat) (hbase : 1 ≤ base) :
    BitVec.ofNat 32 (n * base + d) = BitVec.ofNat 32 n ↔ 2 ^ 32 ∣ n * (base - 1) + d := by
  obtain ⟨b, rfl⟩ : ∃ b, base = b + 1 := ⟨base - 1, by omega⟩
  rw [← BitVec.toNat_inj, BitVec.toNat_ofNat, BitVec.toNat_ofNat, Nat.add_sub_cancel]
  have hmul : n * (b + 1) + d = n + (n * b + d) := by ring
  rw [hmul, Nat.dvd_iff_mod_eq_zero]
  omega

/-- Digits leave the number as it is exactly if each of them does. -/
theorem conv_fixed_iff (base n : Nat) (hbase : 1 ≤ base) (ds : List Nat) :
    conv base ds (BitVec.ofNat 32 n) false = (BitVec.ofNat 32 n, false) ↔
      ∀ d ∈ ds, 2 ^ 32 ∣ n * (base - 1) + d := by
  induction ds with
  | nil => simp [conv]
  | cons d ds ih =>
    rw [conv, ofNat_step, List.forall_mem_cons, ← step_fixed_iff base n d hbase, ← ih]
    constructor
    · intro h
      -- every number on the way lies between the first and the last
      obtain ⟨ho, hle⟩ := conv_mono base ds _ _ (by rw [h])
      rw [h] at hle
      simp only [Bool.false_or, decide_eq_false_iff_not, BitVec.lt_def, Nat.not_lt] at ho
      have heq : BitVec.ofNat 32 (n * base + d) = BitVec.ofNat 32 n :=
        BitVec.eq_of_toNat_eq (Nat.le_antisymm hle ho)
      refine ⟨heq, ?_⟩
      rw [heq] at h
      simpa using h
    · rintro ⟨heq, h⟩
      rw [heq]
      simpa using h

/-! ## The value and the error -/

variable {t : Subject} {number : BitVec 32} {overflow isLong : Bool}

theorem ofNat_value_iff (h : t.value < 2 ^ 32) :
    number = BitVec.ofNat 32 t.value ↔ number.toNat = t.value := by
  rw [← BitVec.toNat_inj, BitVec.toNat_ofNat, Nat.mod_eq_of_lt h]

theorem signed_eq_iff (neg : Bool) :
    (if neg then -number else number) = BitVec.ofInt 32 (if neg then -(t.value : Int) else t.value) ↔
      number = BitVec.ofNat 32 t.value := by
  rcases neg with _ | _
  · simp only [Bool.false_eq_true, if_false, BitVec.ofInt_natCast]
  · simp only [if_true, BitVec.ofInt_neg, BitVec.ofInt_natCast, BitVec.neg_inj]

theorem small_long_iff : t.Small true ↔ -2 ^ 31 ≤ (if t.negative then -(t.value : Int) else t.value) ∧
    (if t.negative then -(t.value : Int) else t.value) < 2 ^ 31 := by
  unfold Subject.Small
  rcases t.negative with _ | _
  · simp only [Bool.false_eq_true, false_and, and_false, or_false, if_false]
    omega
  · simp only [true_and, if_true]
    omega

theorem small_ulong_iff : t.Small false ↔ t.value < 2 ^ 31 := by simp [Subject.Small]

theorem outcome_long (h : t.Small true) :
    outcome true t = (BitVec.ofInt 32 (if t.negative then -(t.value : Int) else t.value), none) := by
  unfold outcome
  rw [if_pos rfl, if_pos (small_long_iff.1 h)]

theorem outcome_long_cut (h : ¬ t.Small true) :
    outcome true t = (if t.negative then LONG_MIN else LONG_MAX, some ERANGE) := by
  unfold outcome
  rw [if_pos rfl, if_neg (mt small_long_iff.2 h)]

theorem outcome_ulong (h : t.value < 2 ^ 32) :
    outcome false t = (BitVec.ofInt 32 (if t.negative then -(t.value : Int) else t.value), none) := by
  unfold outcome
  rw [if_neg Bool.false_ne_true, if_pos h]

theorem outcome_ulong_cut (h : ¬ t.value < 2 ^ 32) : outcome false t = (ULONG_MAX, some ERANGE) := by
  unfold outcome
  rw [if_neg Bool.false_ne_true, if_neg h]

/-- Beyond `LONG_MAX` the code reports an error, and never with the limit of its type. -/
theorem done_beyond (neg : Bool) (h : LONG_MAX < number) :
    (done false neg number false).2 = some ERANGE ∧ (done false neg number false).1 ≠ ULONG_MAX := by
  unfold done
  simp only [Bool.false_eq_true, if_false, Bool.not_false, Bool.true_and, gt_iff_lt, h, decide_true, if_true]
  rcases neg with _ | _
  · simp [LONG_MAX, ULONG_MAX]
  · by_cases hmin : number = LONG_MIN <;> simp [hmin, LONG_MAX, LONG_MIN, ULONG_MAX]

theorem done_within (neg : Bool) (h : ¬ LONG_MAX < number) :
    done false neg number false = (if neg then -number else number, none) := by
  have hmin : number ≠ LONG_MIN := by
    rintro rfl
    exact h (by decide)
  simp [done, h, hmin]

theorem done_overflow_ne : done isLong t.negative number true ≠ outcome isLong t := by
  unfold done
  rcases isLong with _ | _
  · by_cases h : t.value < 2 ^ 32
    · rw [outcome_ulong h]
      simp
    · rw [outcome_ulong_cut h]
      rcases t.negative with _ | _ <;> simp [LONG_MAX, LONG_MIN, ULONG_MAX]
  · by_cases h : t.Small true
    · rw [outcome_long h]
      simp
    · rw [outcome_long_cut h]
      rcases t.negative with _ | _ <;> simp [LONG_MAX, LONG_MIN, ULONG_MAX]

theorem max_lt_iff : LONG_MAX < number ↔ 2147483647 < number.toNat := BitVec.lt_def

/-- The code is right about a value exactly if the value is small and the number holds it. -/
theorem done_eq_iff : done isLong t.negative number overflow = outcome isLong t ↔
    overflow = false ∧ t.Small isLong ∧ number = BitVec.ofNat 32 t.value := by
  rcases overflow with _ | _
  · simp only [true_and]
    rcases isLong with _ | _
    · -- strtoul, which checks the limits of `long`
      rw [small_ulong_iff]
      by_cases hbig : LONG_MAX < number
      · obtain ⟨herr, hval⟩ := @done_beyond number t.negative hbig
        constructor
        · intro h
          rw [h] at herr hval
          by_cases hlt : t.value < 2 ^ 32
          · rw [outcome_ulong hlt] at herr
            exact absurd herr (by simp)
          · rw [outcome_ulong_cut hlt] at hval
            exact absurd rfl hval
        · rintro ⟨hlt, hnum⟩
          have hnat := (ofNat_value_iff (by omega)).1 hnum
          rw [max_lt_iff] at hbig
          omega
      · rw [done_within _ hbig]
        rw [max_lt_iff] at hbig
        constructor
        · intro h
          have hlt : t.value < 2 ^ 32 := by
            by_contra hge
            rw [outcome_ulong_cut hge] at h
            exact absurd (Prod.mk.inj h).2 (by simp)
          rw [outcome_ulong hlt, Prod.mk.injEq, signed_eq_iff] at h
          have hnat := (ofNat_value_iff hlt).1 h.1
          exact ⟨by omega, h.1⟩
        · rintro ⟨hlt, hnum⟩
          rw [outcome_ulong (by omega), Prod.mk.injEq, signed_eq_iff]
          exact ⟨hnum, rfl⟩
    · -- strtol, which checks no limits
      have hdone : done true t.negative number false = (if t.negative then -number else number, none) := by
        simp [done]
      rw [hdone]
      by_cases hsmall : t.Small true
      · rw [outcome_long hsmall, Prod.mk.injEq, signed_eq_iff]
        simp [hsmall]
      · rw [outcome_long_cut hsmall]
        simp [hsmall]
  · -- an overflow gives the limits of the other type
    exact iff_of_false done_overflow_ne (by simp)

/-! ## What stands in front of the digits -/

variable {nptr s r : List Byte} {b : Nat} {c : Byte}

theorem startsZero_cons (h : startsZero s = true) : ∃ r, s = 0x30 :: r := by
  rcases s with _ | ⟨c, r⟩
  · exact absurd h (by decide)
  · simp only [startsZero, List.head?_cons, Option.some.injEq, decide_eq_true_eq] at h
    exact ⟨r, by rw [h]⟩

theorem thenX_cons (h : thenX (c :: s) = true) : ∃ x r, s = x :: r ∧ (x = 0x58 ∨ x = 0x78) := by
  rcases s with _ | ⟨x, r⟩
  · exact absurd h (by simp [thenX])
  · simp only [thenX, List.getElem?_cons_succ, List.getElem?_cons_zero, Option.some.injEq,
      Bool.or_eq_true, decide_eq_true_eq] at h
    exact ⟨x, r, rfl, h⟩

theorem base_cases : ((b : Int) = 0 ∨ (b : Int) = 16) ↔ (b = 0 ∨ b = 16) := by omega

theorem markOf_hex {next : Option Byte} (h : hexMark b s = some next) :
    markOf b s = (16, s.drop 2) ∧ next = s[2]? ∧
      ∃ x r, s = 0x30 :: x :: r ∧ (x = 0x58 ∨ x = 0x78) := by
  unfold hexMark at h
  split_ifs at h with hcond
  obtain ⟨hb, h0, hx⟩ := hcond
  refine ⟨?_, (Option.some.inj h).symm, ?_⟩
  · have hcond : ((b : Int) = 0 ∨ (b : Int) = 16) ∧ thenX s = true := ⟨base_cases.2 hb, hx⟩
    simp only [markOf, h0, if_true, if_pos hcond]
    rfl
  · obtain ⟨r, rfl⟩ := startsZero_cons h0
    obtain ⟨x, r, rfl, hletter⟩ := thenX_cons hx
    exact ⟨x, r, rfl, hletter⟩

theorem markOf_octal (h : hexMark 0 s = none) (h0 : startsZero s = true) :
    markOf 0 s = (8, s.drop 1) := by
  have hx : thenX s = false := by
    by_contra hx
    simp [hexMark, h0, hx] at h
  simp [markOf, h0, hx]

theorem markOf_plain (h : hexMark b s = none) (h0 : ¬ (b = 0 ∧ startsZero s = true)) :
    markOf (b : Int) s = (((if b = 0 then 10 else b : Nat) : Int), s) := by
  unfold markOf
  by_cases hz : startsZero s = true
  · have hb : b ≠ 0 := fun hb => h0 ⟨hb, hz⟩
    have hb' : (b : Int) ≠ 0 := by omega
    have hx : ¬ (((b : Int) = 0 ∨ (b : Int) = 16) ∧ thenX s = true) := by
      rintro ⟨hb, hx⟩
      simp [hexMark, hz, hx, base_cases.1 hb] at h
    simp only [hz, if_true, if_neg hx, if_neg hb', if_neg hb]
  · simp only [hz, if_false, Bool.false_eq_true]
    by_cases hb : b = 0
    · simp [hb]
    · have hb' : (b : Int) ≠ 0 := by omega
      simp only [hb', if_false, hb]

theorem sign_length (s : List Byte) : (sign s).2.length ≤ s.length := by
  rcases s with _ | ⟨c, s⟩
  · exact Nat.le_refl _
  · simp only [sign]
    split_ifs <;> simp

theorem subject_length_le (nptr : List Byte) :
    (sign (nptr.dropWhile isspace)).2.length ≤ nptr.length :=
  Nat.le_trans (sign_length _) (List.length_dropWhile_le ..)

/-- Apart from a `0x` without digits, the code converts the text that C names. -/
theorem subject_plain (hb : b ≠ 1) (h : (subject nptr b).lone = false) :
    convLoop (markOf b (sign (nptr.dropWhile isspace)).2).1 (markOf b (sign (nptr.dropWhile isspace)).2).2 0 false =
        convLoop (subject nptr b).base (subject nptr b).text 0 false ∧
      1 ≤ (subject nptr b).base ∧
      nptr.length = (subject nptr b).before + (subject nptr b).text.length := by
  have hlen := subject_length_le nptr
  unfold subject at h ⊢
  generalize sign (nptr.dropWhile isspace) = ns at h hlen ⊢
  obtain ⟨neg, s⟩ := ns
  dsimp only at h hlen ⊢
  rcases hmark : hexMark b s with _ | next
  · simp only [hmark] at h ⊢
    refine ⟨?_, ?_, by omega⟩
    · by_cases h0 : b = 0 ∧ startsZero s = true
      · obtain ⟨rfl, hhead⟩ := h0
        obtain ⟨r, rfl⟩ := startsZero_cons hhead
        have := markOf_octal hmark hhead
        simp only [Int.natCast_zero, this, if_true, hhead]
        rfl
      · rw [markOf_plain hmark h0]
        by_cases hb0 : b = 0
        · have hz : startsZero s = false := by simpa [hb0] using h0
          simp [hb0, hz]
        · simp [hb0]
    · split_ifs <;> omega
  · obtain ⟨hm, hnext, x, r, rfl, -⟩ := markOf_hex hmark
    simp only [hmark] at h ⊢
    by_cases hd : next.any (isDigitBelow 16)
    · simp only [hd, if_true] at h ⊢
      rw [hm]
      refine ⟨rfl, by omega, ?_⟩
      simp only [List.length_cons, List.drop_succ_cons, List.drop_zero] at hlen ⊢
      omega
    · simp [hd] at h

/-- A `0x` without digits is the digit zero, but the code goes past it. -/
theorem subject_lone (h : (subject nptr b).lone = true) :
    ∃ x r, (subject nptr b).text = 0x30 :: x :: r ∧ (x = 0x58 ∨ x = 0x78) ∧
      (sign (nptr.dropWhile isspace)).2 = 0x30 :: x :: r ∧
      markOf b (0x30 :: x :: r) = (16, r) ∧ ¬ r.head?.any (isDigitBelow 16) ∧
      ((subject nptr b).base = 8 ∨ (subject nptr b).base = 16) ∧
      nptr.length = (subject nptr b).before + (r.length + 2) := by
  have hlen := subject_length_le nptr
  unfold subject at h ⊢
  generalize sign (nptr.dropWhile isspace) = ns at h hlen ⊢
  obtain ⟨neg, s⟩ := ns
  dsimp only at h hlen ⊢
  rcases hmark : hexMark b s with _ | next
  · simp [hmark] at h
  · obtain ⟨hm, hnext, x, r, rfl, hx⟩ := markOf_hex hmark
    simp only [hmark] at h ⊢
    by_cases hd : next.any (isDigitBelow 16)
    · simp [hd] at h
    · have hb : b = 0 ∨ b = 16 := by
        unfold hexMark at hmark
        split_ifs at hmark with hcond
        exact hcond.1
      simp only [if_neg hd]
      refine ⟨x, r, rfl, hx, rfl, by simpa using hm, ?_, ?_, ?_⟩
      · have : r.head? = next := by
          rw [hnext]
          simp [List.head?_eq_getElem?]
        rw [this]
        exact hd
      · rcases hb with rfl | rfl <;> simp
      · simp only [List.length_cons] at hlen ⊢
        omega

theorem subject_negative (nptr : List Byte) (b : Nat) :
    (subject nptr b).negative = (sign (nptr.dropWhile isspace)).1 := by
  unfold subject
  generalize sign (nptr.dropWhile isspace) = ns
  obtain ⟨neg, s⟩ := ns
  dsimp only
  rcases hexMark b s with _ | next
  · rfl
  · dsimp only
    split_ifs <;> rfl

/-! ## The result -/

theorem takeWhile_split {p q : Byte → Bool} (h : ∀ c, p c = true → q c = true) (s : List Byte) :
    s.takeWhile q = s.takeWhile p ++ (s.drop (s.takeWhile p).length).takeWhile q := by
  induction s with
  | nil => rfl
  | cons c s ih =>
    by_cases hc : p c = true
    · rw [List.takeWhile_cons_of_pos (h c hc), List.takeWhile_cons_of_pos hc, ih]
      rfl
    · rw [List.takeWhile_cons_of_neg hc]
      rfl

theorem below_mono (b : Nat) (c : Byte) (h : isDigitBelow b c = true) : isDigitBelow (b + 1) c = true := by
  unfold isDigitBelow at h ⊢
  rcases hd : digitOf c with _ | d <;> simp_all
  omega

theorem run_extra (t : Subject) : t.text.takeWhile (isDigitBelow (t.base + 1)) = t.run ++ t.extra :=
  takeWhile_split (below_mono t.base) t.text

theorem rest_length (p : Byte → Bool) (s : List Byte) :
    (s.dropWhile p).length + (s.takeWhile p).length = s.length := by
  have := congrArg List.length (List.takeWhile_append_dropWhile (p := p) (l := s))
  rw [List.length_append] at this
  omega

/-- What the code returns, in the words of C's text. -/
theorem do_conv_plain {endptr uns : Bool} (hb : b ≠ 1) (hb36 : b ≤ 36)
    (h : (subject nptr b).lone = false) :
    do_conv nptr endptr b uns =
      let t := subject nptr b
      let (number, overflow) := conv t.base ((t.run ++ t.extra).filterMap digitOf) 0 false
      let (value, errno) := done uns t.negative number overflow
      { value, endptr := if endptr then some (t.before + t.run.length + t.extra.length) else none, errno } := by
  obtain ⟨hloop, -, hlen⟩ := @subject_plain nptr b hb h
  have hvalid : ¬ ((b : Int) = 1 ∨ (b : Int) > 36 ∨ (b : Int) < 0) := by omega
  have hrest := rest_length (isDigitBelow ((subject nptr b).base + 1)) (subject nptr b).text
  rw [run_extra, List.length_append] at hrest
  simp only [do_conv, if_neg hvalid]
  rw [hloop, convLoop_eq, run_extra, subject_negative]
  simp only [Conv.mk.injEq, true_and, and_true]
  congr 2
  omega

theorem lone_run {x : Byte} {t : Subject} (htext : t.text = 0x30 :: x :: r) (hx : x = 0x58 ∨ x = 0x78)
    (hbase : t.base = 8 ∨ t.base = 16) : t.run = [0x30] ∧ t.value = 0 := by
  have hrun : t.run = [0x30] := by
    rw [Subject.run, htext]
    rcases hbase with h | h <;> rcases hx with rfl | rfl <;> rw [h] <;> rfl
  refine ⟨hrun, ?_⟩
  rw [Subject.value, hrun]
  rcases hbase with h | h <;> rw [h] <;> rfl

/-- After a `0x` without digits the number stays zero unless a letter g follows. -/
theorem conv_lone_iff (h : ¬ r.head?.any (isDigitBelow 16) = true) :
    conv 16 ((r.takeWhile (isDigitBelow 17)).filterMap digitOf) 0 false = (0, false) ↔
      ¬ r.head?.any (isDigitBelow 17) = true := by
  have hzero : (0 : BitVec 32) = BitVec.ofNat 32 0 := rfl
  rw [hzero, conv_fixed_iff 16 0 (by omega)]
  rcases r with _ | ⟨c, r⟩
  · simp
  · simp only [List.head?_cons, Option.any_some] at h ⊢
    by_cases hc : isDigitBelow 17 c = true
    · obtain ⟨d, hd, hlt⟩ : ∃ d, digitOf c = some d ∧ d < 17 := by
        unfold isDigitBelow at hc
        rcases hd : digitOf c with _ | d
        · simp [hd] at hc
        · exact ⟨d, rfl, by simpa [hd] using hc⟩
      have hge : ¬ d < 16 := by
        intro hlt
        exact h (by simp [isDigitBelow, hd, hlt])
      rw [List.takeWhile_cons_of_pos hc, List.filterMap_cons_some hd]
      simp only [hc, not_true_eq_false, iff_false]
      intro hall
      have := hall d (by simp)
      omega
    · rw [List.takeWhile_cons_of_neg hc]
      simp [hc]

/-- A `0x` without digits. -/
theorem lone_right_iff {endptr isLong : Bool} (hb : b ≠ 1) (hb36 : b ≤ 36)
    (h : (subject nptr b).lone = true) :
    do_conv nptr endptr b isLong = specified isLong nptr endptr b ↔
      (subject nptr b).Small isLong ∧ (subject nptr b).DigitsRight endptr := by
  obtain ⟨x, r, htext, hx, hsign, hmark, hhead, hbase, hlen⟩ := subject_lone h
  obtain ⟨hrun, hvalue⟩ := lone_run htext hx hbase
  have hvalid : ¬ ((b : Int) = 1 ∨ (b : Int) > 36 ∨ (b : Int) < 0) := by omega
  have hrest := rest_length (isDigitBelow 17) r
  have hsmall : (subject nptr b).Small isLong := .inl (by rw [hvalue]; decide)
  have hthird : (subject nptr b).text[2]? = r.head? := by
    rw [htext]
    simp [List.head?_eq_getElem?]
  have hend : (subject nptr b).endOf = (subject nptr b).before + 1 := by
    simp [Subject.endOf, hrun]
  have hconv : convLoop 16 r 0 false =
      ((conv 16 ((r.takeWhile (isDigitBelow 17)).filterMap digitOf) 0 false).1,
        (conv 16 ((r.takeWhile (isDigitBelow 17)).filterMap digitOf) 0 false).2,
        r.dropWhile (isDigitBelow 17)) := convLoop_eq 16 r 0 false
  have hdone : ∀ n o, done isLong (sign (nptr.dropWhile isspace)).1 n o = outcome isLong (subject nptr b) ↔
      (n, o) = (0, false) := by
    intro n o
    rw [← subject_negative nptr b, done_eq_iff, hvalue]
    simp only [hsmall, true_and, Prod.mk.injEq]
    exact And.comm
  simp only [Subject.DigitsRight, h, if_true, hthird, hsmall, true_and]
  simp only [do_conv, specified, if_neg hvalid, hsign, hmark, Int.toNat_natCast, hconv, Conv.mk.injEq]
  rw [← conv_lone_iff hhead, ← hdone]
  rcases endptr with _ | _
  · simp [Prod.ext_iff]
  · simp only [if_true, Option.some.injEq, hend, Bool.true_eq_false, false_and, iff_false]
    omega

/-- All other texts. -/
theorem plain_right_iff {endptr isLong : Bool} (hb : b ≠ 1) (hb36 : b ≤ 36)
    (h : (subject nptr b).lone = false) :
    do_conv nptr endptr b isLong = specified isLong nptr endptr b ↔
      (subject nptr b).Small isLong ∧ (subject nptr b).DigitsRight endptr := by
  have hvalid : ¬ ((b : Int) = 1 ∨ (b : Int) > 36 ∨ (b : Int) < 0) := by omega
  obtain ⟨-, hbase, -⟩ := @subject_plain nptr b hb h
  rw [do_conv_plain hb hb36 h]
  simp only [specified, if_neg hvalid, Int.toNat_natCast]
  generalize subject nptr b = t at *
  have hdone := @done_eq_iff t (conv t.base ((t.run ++ t.extra).filterMap digitOf) 0 false).1
    (conv t.base ((t.run ++ t.extra).filterMap digitOf) 0 false).2 isLong
  have hnumber : t.Small isLong →
      (conv t.base ((t.run ++ t.extra).filterMap digitOf) 0 false =
          (BitVec.ofNat 32 t.value, false) ↔
        ∀ d ∈ t.extra.filterMap digitOf, 2 ^ 32 ∣ t.value * (t.base - 1) + d) := by
    intro hsmall
    have hlt : t.value < 2 ^ 32 := by
      unfold Subject.Small at hsmall
      omega
    have hexact : conv t.base (t.run.filterMap digitOf) 0 false = (BitVec.ofNat 32 t.value, false) :=
      conv_exact t.base hbase (t.run.filterMap digitOf) 0 false hlt
    rw [List.filterMap_append, conv_append, hexact, conv_fixed_iff t.base t.value hbase]
  have hvalue : done isLong t.negative (conv t.base ((t.run ++ t.extra).filterMap digitOf) 0 false).1
        (conv t.base ((t.run ++ t.extra).filterMap digitOf) 0 false).2 = outcome isLong t ↔
      t.Small isLong ∧ ∀ d ∈ t.extra.filterMap digitOf, 2 ^ 32 ∣ t.value * (t.base - 1) + d := by
    rw [hdone]
    constructor
    · rintro ⟨ho, hsmall, hn⟩
      exact ⟨hsmall, (hnumber hsmall).1 (Prod.ext hn ho)⟩
    · rintro ⟨hsmall, hall⟩
      have := (hnumber hsmall).2 hall
      exact ⟨congrArg Prod.snd this, hsmall, congrArg Prod.fst this⟩
  simp only [Conv.mk.injEq, Subject.DigitsRight, h, Bool.false_eq_true, if_false]
  rcases endptr with _ | _
  · -- without `endptr` only the value counts
    simp only [Bool.false_eq_true, if_false, true_and, ← Prod.ext_iff]
    rw [hvalue]
    by_cases hextra : t.extra = [] <;> simp [hextra]
  · simp only [if_true, Option.some.injEq, Bool.true_eq_false, false_or, false_and]
    have hsplit : ((done isLong t.negative (conv t.base ((t.run ++ t.extra).filterMap digitOf) 0 false).1
          (conv t.base ((t.run ++ t.extra).filterMap digitOf) 0 false).2).1 = (outcome isLong t).1 ∧
        t.before + t.run.length + t.extra.length = t.endOf ∧
        (done isLong t.negative (conv t.base ((t.run ++ t.extra).filterMap digitOf) 0 false).1
          (conv t.base ((t.run ++ t.extra).filterMap digitOf) 0 false).2).2 = (outcome isLong t).2) ↔
        (t.Small isLong ∧ ∀ d ∈ t.extra.filterMap digitOf, 2 ^ 32 ∣ t.value * (t.base - 1) + d) ∧
          t.before + t.run.length + t.extra.length = t.endOf := by
      rw [← hvalue, Prod.ext_iff]
      tauto
    rw [hsplit]
    have hend : t.before + t.run.length + t.extra.length = t.endOf ↔
        t.extra = [] ∧ (t.run ≠ [] ∨ t.before = 0) := by
      have hnil : t.extra = [] ↔ t.extra.length = 0 := List.length_eq_zero_iff.symm
      rw [Subject.endOf, hnil]
      split_ifs with hrun
      · simp only [hrun, List.length_nil, ne_eq, not_true_eq_false, false_or]
        omega
      · simp only [ne_eq, hrun, not_false_eq_true, true_or, and_true]
        omega
    rw [hend]
    by_cases hextra : t.extra = [] <;> simp [hextra]

theorem conv_right_iff (isLong : Bool) (nptr : List Byte) (endptr : Bool) (base : Int) :
    do_conv nptr endptr base isLong = specified isLong nptr endptr base ↔
      ConvRight isLong nptr endptr base := by
  by_cases hvalid : base = 1 ∨ base > 36 ∨ base < 0
  · have hright : ConvRight isLong nptr endptr base := by
      rcases hvalid with h | h | h
      · exact .inl h
      · exact .inr (.inl h)
      · exact .inr (.inr (.inl h))
    exact iff_of_true (by simp [do_conv, specified, hvalid]) hright
  · obtain ⟨b, rfl⟩ : ∃ b : Nat, base = b := ⟨base.toNat, by omega⟩
    have hright : ConvRight isLong nptr endptr b ↔
        (subject nptr b).Small isLong ∧ (subject nptr b).DigitsRight endptr := by
      unfold ConvRight
      rw [Int.toNat_natCast]
      tauto
    rw [hright]
    rcases h : (subject nptr b).lone with _ | _
    · exact plain_right_iff (by omega) (by omega) h
    · exact lone_right_iff (by omega) (by omega) h

/-- Both functions give what C specifies exactly where the condition holds. -/
theorem integers_parsed_iff (nptr : List Byte) (endptr : Bool) (base : Int) :
    (strtol nptr endptr base = specified true nptr endptr base ↔ ConvRight true nptr endptr base) ∧
    (strtoul nptr endptr base = specified false nptr endptr base ↔ ConvRight false nptr endptr base) :=
  ⟨conv_right_iff true nptr endptr base, conv_right_iff false nptr endptr base⟩

/-- `strtol("2147483648", 0, 10)` gives -2147483648 and no error. -/
theorem strtol_misses_limit :
    strtol [0x32, 0x31, 0x34, 0x37, 0x34, 0x38, 0x33, 0x36, 0x34, 0x38] false 10 ≠
      specified true [0x32, 0x31, 0x34, 0x37, 0x34, 0x38, 0x33, 0x36, 0x34, 0x38] false 10 := by
  decide

end Fuzemsys.Libs.Strtol
