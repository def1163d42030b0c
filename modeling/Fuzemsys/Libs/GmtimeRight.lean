import Mathlib.Tactic.IntervalCases
import Fuzemsys.Libs.Gmtime

/-!
# When gmtime_r is right

The loops count years in the calendar whose leap years are those of the unsigned year.
Its dates are compared with the Gregorian ones.
-/

open Fuzemsys.Lib.Calendar

namespace Fuzemsys.Libs.Time

variable {sz : IntSize} {t y z days : Int}

/-! ## Integers -/

theorem mon_lengths_eq (leap : Bool) : mon_lengths leap = monthDays leap := by cases leap <;> rfl

theorem bits_cases (sz : IntSize) : (2 : Int) ^ sz.bits = 65536 ∨ (2 : Int) ^ sz.bits = 4294967296 := by
  rcases sz with _ | _
  · exact .inl rfl
  · exact .inr rfl

theorem toUnsigned_add (sz : IntSize) (x k : Int) :
    sz.toUnsigned (sz.toUnsigned x + k) = sz.toUnsigned (x + k) := by
  unfold IntSize.toUnsigned
  exact Int.emod_add_emod _ _ _

theorem toUnsigned_of_range (h0 : 0 ≤ y) (h : y < 2 ^ sz.bits) : sz.toUnsigned y = y :=
  Int.emod_eq_of_lt h0 h

theorem toInt_toUnsigned (sz : IntSize) (x : Int) : sz.toInt (sz.toUnsigned x) = sz.toInt x := by
  unfold IntSize.toInt IntSize.toUnsigned
  have := Int.emod_bmod x (2 ^ sz.bits)
  push_cast at this
  exact this

theorem toLong_of_range (h0 : -2 ^ 31 ≤ y) (h : y < 2 ^ 31) : toLong y = y := by
  exact Int.bmod_eq_of_le (by norm_num; omega) (by norm_num; omega)

theorem toLong_cases (y : Int) : ∃ k, toLong y = y + 2 ^ 32 * k ∧ -2 ^ 31 ≤ toLong y ∧ toLong y < 2 ^ 31 := by
  have hdvd : (2 ^ 32 : Int) ∣ toLong y - y := by
    have hmod : (toLong y) % 2 ^ 32 = y % 2 ^ 32 := Int.bmod_emod
    exact Int.dvd_of_emod_eq_zero (Int.emod_eq_emod_iff_emod_sub_eq_zero.1 hmod)
  obtain ⟨k, hk⟩ := hdvd
  have hlo : -2 ^ 31 ≤ toLong y := Int.le_bmod (by norm_num)
  have hhi : toLong y < 2 ^ 31 := Int.bmod_lt (by norm_num)
  exact ⟨k, by omega, hlo, hhi⟩

/-! ## The calendar of the unsigned year -/

/-- The length that the loops give to year `z`. -/
def unsignedDays (sz : IntSize) (z : Int) : Int := yearLength (sz.toUnsigned z)

theorem unsignedDays_cases (sz : IntSize) (z : Int) :
    unsignedDays sz z = 365 ∨ unsignedDays sz z = 366 := yearLength_cases _

theorem unsignedDays_pos (sz : IntSize) (z : Int) : 0 < unsignedDays sz z := by
  rcases unsignedDays_cases sz z with h | h <;> omega

/-- The first day of year `z` as the loops count. -/
def start (sz : IntSize) (z : Int) : Int := daysBefore 1970 (unsignedDays sz) z

theorem start_succ (sz : IntSize) (z : Int) : start sz (z + 1) = start sz z + unsignedDays sz z :=
  daysBefore_succ 1970 (unsignedDays sz) z

theorem yearsUp_negative (h : days < 0) : yearsUp sz y days = (y, days) := by
  unfold yearsUp
  have := yearLength_cases y
  rw [if_neg (by omega)]

theorem yearsUp_spec (z : Int) (hdays : 0 ≤ days) :
    ∃ z' ≥ z, yearsUp sz (sz.toUnsigned z) days = (sz.toUnsigned z', days - (start sz z' - start sz z)) ∧
      start sz z' ≤ days + start sz z ∧ days + start sz z < start sz (z' + 1) := by
  induction hn : days.toNat using Nat.strong_induction_on generalizing days z with
  | _ n ih =>
    have hlen := unsignedDays_cases sz z
    have hsucc := start_succ sz z
    unfold yearsUp
    change ∃ z' ≥ z, (if unsignedDays sz z ≤ days then
      yearsUp sz (sz.toUnsigned (sz.toUnsigned z + 1)) (days - unsignedDays sz z) else _) = _ ∧ _
    by_cases h : unsignedDays sz z ≤ days
    · obtain ⟨z', hz', heq, hlo, hhi⟩ := @ih (days - unsignedDays sz z).toNat (by omega)
        (days - unsignedDays sz z) (z + 1) (by omega) rfl
      refine ⟨z', by omega, ?_, by omega, by omega⟩
      rw [if_pos h, toUnsigned_add, heq]
      congr 1
      omega
    · refine ⟨z, le_rfl, ?_, by omega, by omega⟩
      rw [if_neg h, sub_self, sub_zero]

theorem yearsDown_nonneg (h : 0 ≤ days) : yearsDown sz y days = (y, days) := by
  unfold yearsDown
  rw [if_neg (by omega)]

theorem yearsDown_spec (z : Int) (hdays : days < unsignedDays sz z) :
    ∃ z' ≤ z, yearsDown sz (sz.toUnsigned z) days = (sz.toUnsigned z', days - (start sz z' - start sz z)) ∧
      start sz z' ≤ days + start sz z ∧ days + start sz z < start sz (z' + 1) := by
  induction hn : (-days).toNat using Nat.strong_induction_on generalizing days z with
  | _ n ih =>
    have hsucc := start_succ sz z
    unfold yearsDown
    by_cases h : days < 0
    · have hlen := unsignedDays_cases sz (z - 1)
      have hback := start_succ sz (z - 1)
      rw [sub_add_cancel] at hback
      obtain ⟨z', hz', heq, hlo, hhi⟩ := @ih (-(days + unsignedDays sz (z - 1))).toNat
        (by omega) (days + unsignedDays sz (z - 1)) (z - 1) (by omega) rfl
      refine ⟨z', by omega, ?_, by omega, by omega⟩
      have hstep : sz.toUnsigned (sz.toUnsigned z - 1) = sz.toUnsigned (z - 1) := toUnsigned_add sz z (-1)
      rw [if_pos h, hstep]
      change yearsDown sz (sz.toUnsigned (z - 1)) (days + unsignedDays sz (z - 1)) = _
      rw [heq]
      congr 1
      omega
    · refine ⟨z, le_rfl, ?_, by omega, by omega⟩
      rw [if_neg h, sub_self, sub_zero]

/-- Both loops together find the year of the day. -/
theorem years_spec (sz : IntSize) (days : Int) :
    ∃ z, yearsDown sz (yearsUp sz 1970 days).1 (yearsUp sz 1970 days).2 =
        (sz.toUnsigned z, days - start sz z) ∧
      start sz z ≤ days ∧ days < start sz (z + 1) := by
  have h1970 : sz.toUnsigned 1970 = 1970 :=
    toUnsigned_of_range (by omega) (by rcases bits_cases sz with h | h <;> rw [h] <;> omega)
  have hstart : start sz 1970 = 0 := daysBefore_epoch
  rcases le_or_gt 0 days with h | h
  · obtain ⟨z, -, heq, hlo, hhi⟩ := @yearsUp_spec sz days 1970 h
    rw [h1970, hstart] at heq
    refine ⟨z, ?_, by omega, by omega⟩
    rw [heq, yearsDown_nonneg (by dsimp only; omega), sub_zero]
  · obtain ⟨z, -, heq, hlo, hhi⟩ := @yearsDown_spec sz days 1970
      (by have := unsignedDays_pos sz 1970; omega)
    rw [h1970, hstart] at heq
    refine ⟨z, ?_, by omega, by omega⟩
    rw [yearsUp_negative h, heq, sub_zero]

/-! ## Months -/

/-- The walk finds the month of a day of the year. -/
theorem months_spec {ip : List Int} (hpos : 0 ≤ days) (hlt : days < ip.sum) :
    ∃ n, ip[(months ip days).1]? = some n ∧ 0 ≤ (months ip days).2 ∧ (months ip days).2 < n ∧
      daysInto ip (months ip days).1 + (months ip days).2 = days := by
  induction ip generalizing days with
  | nil => simp at hlt; omega
  | cons k ip ih =>
    rw [List.sum_cons] at hlt
    unfold months
    by_cases h : k ≤ days
    · obtain ⟨n, hget, h0, hn, hsum⟩ := @ih (days - k) (by omega) (by omega)
      refine ⟨n, by simpa [h] using hget, by simpa [h] using h0, by simpa [h] using hn, ?_⟩
      simp only [if_pos h]
      unfold daysInto at hsum ⊢
      rw [List.take_succ_cons, List.sum_cons]
      omega
    · exact ⟨k, by simp [h], by simpa [h] using hpos, by simpa [h] using not_le.1 h, by simp [h, daysInto]⟩

theorem monthDays_sum (leap : Bool) : (monthDays leap).sum = if leap then 366 else 365 := by
  cases leap <;> rfl

/-! ## Leap years -/

theorem length_filter_succ (leap : Int → Bool) (n : Nat) :
    ((List.range (n + 1)).filter fun k : Nat => leap (1969 - k)).length =
      ((List.range n).filter fun k : Nat => leap (1969 - k)).length + (leap (1969 - n)).toNat := by
  rw [List.range_succ, List.filter_append, List.length_append]
  rcases h : leap (1969 - n) <;> simp [h]

/-- Before 1970 the days follow from the number of leap years. -/
theorem daysBefore_leaps {len : Int → Int} {leap : Int → Bool}
    (hlen : ∀ y, len y = 365 + (leap y).toNat) (hy : y ≤ 1970) :
    daysBefore 1970 len y = 365 * (y - 1970) - leapsSince leap y := by
  obtain ⟨n, rfl⟩ : ∃ n : Nat, y = 1970 - n := ⟨(1970 - y).toNat, by omega⟩
  have hn : (1970 - (1970 - (n : Int))).toNat = n := by omega
  rw [leapsSince, hn]
  induction n with
  | zero => simp
  | succ n ih =>
    have hstep := daysBefore_succ 1970 len (1970 - (n + 1 : Nat))
    have hback : (1970 - ((n + 1 : Nat) : Int)) + 1 = 1970 - n := by omega
    have hlast : (1970 - ((n + 1 : Nat) : Int)) = 1969 - n := by omega
    rw [hback, ih (by omega) (by omega), hlen, hlast] at hstep
    rw [length_filter_succ, hlast]
    push_cast
    omega

theorem yearDays_eq (y : Int) : yearDays y = 365 + (isLeap y).toNat := by
  unfold yearDays
  cases isLeap y <;> rfl

theorem unsignedDays_eq (sz : IntSize) (y : Int) : unsignedDays sz y = 365 + (unsignedLeap sz y).toNat := by
  unfold unsignedDays yearLength unsignedLeap
  cases isleap (sz.toUnsigned y) <;> rfl

/-- The two calendars agree at the start of a year before 1970 if they count as many leap years. -/
theorem start_eq_iff (hy : y ≤ 1970) :
    start sz y = daysBefore 1970 yearDays y ↔ leapsSince (unsignedLeap sz) y = leapsSince isLeap y := by
  rw [start, daysBefore_leaps (unsignedDays_eq sz) hy, daysBefore_leaps yearDays_eq hy]
  omega

/-- From 1970 on the unsigned year is the year. -/
theorem start_from_1970 (hy : 1970 ≤ y) (hfit : y < 2 ^ sz.bits) :
    start sz y = daysBefore 1970 yearDays y := by
  unfold start daysBefore
  have hdown : (1970 - y).toNat = 0 := by omega
  rw [hdown]
  congr 1
  apply Finset.sum_congr rfl
  intro k hk
  rw [Finset.mem_range] at hk
  unfold unsignedDays
  rw [toUnsigned_of_range (by omega) (by omega)]
  rfl

theorem leapsSince_from_1970 (leap : Int → Bool) (hy : 1970 ≤ y) : leapsSince leap y = 0 := by
  have hdown : (1970 - y).toNat = 0 := by omega
  simp [leapsSince, hdown]

theorem start_iff (hfit : y < 2 ^ sz.bits) :
    start sz y = daysBefore 1970 yearDays y ↔ leapsSince (unsignedLeap sz) y = leapsSince isLeap y := by
  rcases le_total y 1970 with h | h
  · exact start_eq_iff h
  · rw [leapsSince_from_1970 _ h, leapsSince_from_1970 _ h]
    exact iff_of_true (start_from_1970 h hfit) rfl

/-! ## Time of day -/

theorem tdiv_add_tmod (t : Int) : t = 86400 * t.tdiv 86400 + t.tmod 86400 := (Int.mul_tdiv_add_tmod t 86400).symm

theorem tmod_bounds (t : Int) : -86400 < t.tmod 86400 ∧ t.tmod 86400 < 86400 := by
  refine ⟨?_, Int.tmod_lt_of_pos t (by omega)⟩
  have := Int.tmod_lt_of_pos (-t) (show (0 : Int) < 86400 by omega)
  rw [Int.neg_tmod] at this
  omega

/-- The remainder is not negative exactly outside the days before 1970. -/
theorem tmod_nonneg_iff (t : Int) : 0 ≤ t.tmod 86400 ↔ 0 ≤ t ∨ 86400 ∣ t := by
  have hsplit := tdiv_add_tmod t
  constructor
  · intro h
    rcases le_or_gt 0 t with ht | ht
    · exact .inl ht
    · have hback := Int.tmod_nonneg 86400 (show 0 ≤ -t by omega)
      rw [Int.neg_tmod] at hback
      exact .inr (Int.dvd_of_tmod_eq_zero (by omega))
  · rintro (ht | ht)
    · exact Int.tmod_nonneg _ ht
    · rw [Int.tmod_eq_zero_of_dvd ht]

theorem tdiv_eq_floor (h : 0 ≤ t.tmod 86400) : t.tdiv 86400 = t / 86400 := by
  have hsplit := tdiv_add_tmod t
  have hbounds := tmod_bounds t
  omega

theorem toInt_of_range (h0 : -32768 ≤ y) (h : y < 32768) : sz.toInt y = y := by
  unfold IntSize.toInt
  rcases sz with _ | _ <;> exact Int.bmod_eq_of_le (by norm_num [IntSize.bits]; omega)
    (by norm_num [IntSize.bits]; omega)

/-- Hours, minutes and seconds of the remainder. -/
theorem clock_spec (rem : Int) :
    3600 * rem.tdiv 3600 + 60 * (rem.tmod 3600).tdiv 60 + (rem.tmod 3600).tmod 60 = rem := by
  have h1 := Int.mul_tdiv_add_tmod rem 3600
  have h2 := Int.mul_tdiv_add_tmod (rem.tmod 3600) 60
  omega

theorem clock_ranges {rem : Int} (h0 : 0 ≤ rem) (h : rem < 86400) :
    (0 ≤ (rem.tmod 3600).tmod 60 ∧ (rem.tmod 3600).tmod 60 < 60) ∧
    (0 ≤ (rem.tmod 3600).tdiv 60 ∧ (rem.tmod 3600).tdiv 60 < 60) ∧
    (0 ≤ rem.tdiv 3600 ∧ rem.tdiv 3600 < 24) := by
  rw [Int.tmod_eq_emod_of_nonneg h0, Int.tdiv_eq_ediv_of_nonneg h0]
  have hmin : 0 ≤ rem % 3600 := by omega
  rw [Int.tmod_eq_emod_of_nonneg hmin, Int.tdiv_eq_ediv_of_nonneg hmin]
  omega

theorem tdiv_hour_small {rem : Int} (h0 : -86400 < rem) (h : rem < 86400) :
    -32768 ≤ rem.tdiv 3600 ∧ rem.tdiv 3600 < 32768 := by
  have h1 := Int.mul_tdiv_add_tmod rem 3600
  have h2 := Int.tmod_lt_of_pos rem (show (0 : Int) < 3600 by omega)
  have h3 := Int.tmod_lt_of_pos (-rem) (show (0 : Int) < 3600 by omega)
  rw [Int.neg_tmod] at h3
  omega

theorem weekDay_eq (days : Int) : weekDay days = toLong (4 + days) % 7 := by
  unfold weekDay
  generalize toLong (4 + days) = x
  rcases le_or_gt 0 x with h | h
  · rw [Int.tmod_eq_emod_of_nonneg h, if_neg (by omega)]
  · obtain ⟨k, rfl⟩ : ∃ k : Int, x = -k := ⟨-x, by omega⟩
    rw [Int.neg_tmod, Int.tmod_eq_emod_of_nonneg (by omega)]
    dsimp only
    split_ifs <;> omega

/-! ## The fields -/

/-- The fields of `t` when the loops end in year `z`. -/
def fields (sz : IntSize) (t z : Int) : Tm :=
  let days := toLong (t.tdiv 86400)
  let rem := t.tmod 86400
  { tm_hour := rem.tdiv 3600
    tm_min := (rem.tmod 3600).tdiv 60
    tm_sec := (rem.tmod 3600).tmod 60
    tm_wday := weekDay days
    tm_year := sz.toInt (z - 1900)
    tm_yday := days - start sz z
    tm_mon := (months (monthDays (unsignedLeap sz z)) (days - start sz z)).1
    tm_mday := (months (monthDays (unsignedLeap sz z)) (days - start sz z)).2 + 1 }

theorem gmtime_fields (sz : IntSize) (t : Int) :
    ∃ z, start sz z ≤ toLong (t.tdiv 86400) ∧ toLong (t.tdiv 86400) < start sz (z + 1) ∧
      gmtime_r sz t = fields sz t z := by
  obtain ⟨z, hyears, hlo, hhi⟩ := years_spec sz (toLong (t.tdiv 86400))
  refine ⟨z, hlo, hhi, ?_⟩
  have hbounds := tmod_bounds t
  have hrem : toLong (t.tmod 86400) = t.tmod 86400 := toLong_of_range (by omega) (by omega)
  have hhour := tdiv_hour_small hbounds.1 hbounds.2
  have hyear : sz.toInt (sz.toUnsigned (sz.toUnsigned z - 1900)) = sz.toInt (z - 1900) := by
    have := toUnsigned_add sz z (-1900)
    rw [← sub_eq_add_neg, ← sub_eq_add_neg] at this
    rw [this, toInt_toUnsigned]
  unfold gmtime_r tm_conv compute_tm fields
  simp only [SECS_PER_DAY, SECS_PER_HOUR, hrem, hyears, mon_lengths_eq, hyear,
    toInt_of_range hhour.1 hhour.2, unsignedLeap]

/-- A month ends within its year. -/
theorem month_end {leap : Bool} {m : Nat} {n : Int} (h : (monthDays leap)[m]? = some n) :
    0 ≤ daysInto (monthDays leap) m ∧ daysInto (monthDays leap) m + n ≤ if leap then 366 else 365 := by
  have hm : m < 12 := by
    have := (List.getElem?_eq_some_iff.1 h).1
    simpa [monthDays] using this
  rcases leap with _ | _ <;> interval_cases m <;> simp_all [monthDays, daysInto] <;> omega

/-- Up to the end of February the leap year makes no difference. -/
theorem daysInto_early {m : Nat} (hm : m ≤ 1) (leap leap' : Bool) :
    daysInto (monthDays leap) m = daysInto (monthDays leap') m := by
  rcases leap with _ | _ <;> rcases leap' with _ | _ <;> interval_cases m <;> rfl

/-- Behind February it always does. -/
theorem daysInto_late {m : Nat} (hm : 2 ≤ m) (hlt : m < 12) :
    daysInto (monthDays true) m = daysInto (monthDays false) m + 1 ∧
      59 ≤ daysInto (monthDays false) m := by
  interval_cases m <;> exact ⟨rfl, by decide⟩

theorem month_early {m : Nat} {n : Int} (hm : m ≤ 1) (leap : Bool) (h : (monthDays leap)[m]? = some n) :
    (m = 0 ∧ n = 31 ∧ daysInto (monthDays leap) m = 0) ∨
      (m = 1 ∧ (n = if leap then 29 else 28) ∧ daysInto (monthDays leap) m = 31) := by
  interval_cases m
  · exact .inl ⟨rfl, by simpa [monthDays] using h.symm, rfl⟩
  · exact .inr ⟨rfl, by simpa [monthDays] using h.symm, rfl⟩

/-! ## The result -/

theorem unsignedDays_of_leap (h : unsignedLeap sz y = isLeap y) : unsignedDays sz y = yearDays y := by
  rw [unsignedDays_eq, yearDays_eq, h]

theorem start_bounds (sz : IntSize) (z : Int) :
    (1970 ≤ z → 365 * (z - 1970) ≤ start sz z ∧ start sz z ≤ 366 * (z - 1970)) ∧
    (z ≤ 1970 → 366 * (z - 1970) ≤ start sz z ∧ start sz z ≤ 365 * (z - 1970)) := by
  apply daysBefore_bounds
  · intro y
    rcases unsignedDays_cases sz y with h | h <;> omega
  · intro y
    rcases unsignedDays_cases sz y with h | h <;> omega

theorem daysBefore_yearDays_bounds (y : Int) :
    (1970 ≤ y → 365 * (y - 1970) ≤ daysBefore 1970 yearDays y ∧
      daysBefore 1970 yearDays y ≤ 366 * (y - 1970)) ∧
    (y ≤ 1970 → 366 * (y - 1970) ≤ daysBefore 1970 yearDays y ∧
      daysBefore 1970 yearDays y ≤ 365 * (y - 1970)) := by
  apply daysBefore_bounds
  · intro y
    rcases yearDays_cases y with h | h <;> omega
  · intro y
    rcases yearDays_cases y with h | h <;> omega

/-- A year within `int` has days within a `long`, unless `int` is as wide as `long`. -/
theorem year_bounds (hfit : -2 ^ (sz.bits - 1) ≤ y - 1900 ∧ y - 1900 < 2 ^ (sz.bits - 1)) :
    (2 ^ sz.bits = (65536 : Int) ∧ -30868 ≤ y ∧ y ≤ 34667) ∨
      (2 ^ sz.bits = (4294967296 : Int) ∧ -2147481748 ≤ y ∧ y ≤ 2147485547) := by
  rcases sz with _ | _
  · refine .inl ⟨rfl, ?_⟩
    norm_num [IntSize.bits] at hfit
    omega
  · refine .inr ⟨rfl, ?_⟩
    norm_num [IntSize.bits] at hfit
    omega

/-- The walk over the months starts within the year. -/
theorem walk_spec {days z : Int} (hlo : start sz z ≤ days) (hhi : days < start sz (z + 1)) :
    ∃ n, (monthDays (unsignedLeap sz z))[(months (monthDays (unsignedLeap sz z)) (days - start sz z)).1]? =
        some n ∧
      0 ≤ (months (monthDays (unsignedLeap sz z)) (days - start sz z)).2 ∧
      (months (monthDays (unsignedLeap sz z)) (days - start sz z)).2 < n ∧
      daysInto (monthDays (unsignedLeap sz z)) (months (monthDays (unsignedLeap sz z)) (days - start sz z)).1 +
        (months (monthDays (unsignedLeap sz z)) (days - start sz z)).2 = days - start sz z := by
  apply months_spec (by omega)
  rw [monthDays_sum]
  rw [start_succ, unsignedDays_eq] at hhi
  rcases hu : unsignedLeap sz z with _ | _ <;> simp [hu] at hhi ⊢ <;> omega

/-- The fields of the right year are right where the condition holds. -/
theorem tells_of_fits (hfit : -2 ^ (sz.bits - 1) ≤ y - 1900 ∧ y - 1900 < 2 ^ (sz.bits - 1))
    (hyear : InYear t y) (h : GmtimeFits sz t y) : Tells t (gmtime_r sz t) := by
  obtain ⟨hday, ⟨hmin, hmax⟩, hleaps, hleap⟩ := h
  obtain ⟨hlo, hhi⟩ := hyear
  have hrem := (tmod_nonneg_iff t).2 hday
  have hfloor := tdiv_eq_floor hrem
  have hsplit := tdiv_add_tmod t
  have hbounds := tmod_bounds t
  have hlong : toLong (t.tdiv 86400) = t / 86400 := by
    rw [hfloor]
    exact toLong_of_range hmin (by omega)
  have hbits := year_bounds hfit
  have hstart : start sz y = daysBefore 1970 yearDays y := (start_iff (by omega)).2 hleaps
  have hulen := unsignedDays_cases sz y
  have hnext : t / 86400 < start sz (y + 1) := by
    rw [start_succ, hstart]
    rw [daysBefore_succ] at hhi
    rcases hleap with hl | hl
    · rw [unsignedDays_of_leap hl]
      exact hhi
    · omega
  obtain ⟨z, hzlo, hzhi, hfields⟩ := gmtime_fields sz t
  rw [hlong] at hzlo hzhi
  obtain rfl : z = y := year_unique (unsignedDays_pos sz) hzlo hzhi (hstart.trans_le hlo) hnext
  have hname : 1900 + sz.toInt (z - 1900) = z := by
    have hint : sz.toInt (z - 1900) = z - 1900 := by
      unfold IntSize.toInt
      rcases sz with _ | _ <;> exact Int.bmod_eq_of_le (by norm_num [IntSize.bits] at hfit ⊢; omega)
        (by norm_num [IntSize.bits] at hfit ⊢; omega)
    omega
  obtain ⟨n, hmon, hday0, hdayn, hdays⟩ := walk_spec hzlo hzhi
  -- the month and its length are the same in the calendar's own table
  have htable : ∃ n', (monthDays (isLeap z))[(months (monthDays (unsignedLeap sz z)) (t / 86400 - start sz z)).1]? =
        some n' ∧ (months (monthDays (unsignedLeap sz z)) (t / 86400 - start sz z)).2 < n' ∧
      daysInto (monthDays (isLeap z)) (months (monthDays (unsignedLeap sz z)) (t / 86400 - start sz z)).1 =
        daysInto (monthDays (unsignedLeap sz z)) (months (monthDays (unsignedLeap sz z)) (t / 86400 - start sz z)).1 := by
    rcases hleap with hl | hl
    · rw [← hl]
      exact ⟨n, hmon, hdayn, rfl⟩
    · rw [← hstart] at hl
      generalize months (monthDays (unsignedLeap sz z)) (t / 86400 - start sz z) = md at *
      have hm12 : md.1 < 12 := by simpa [monthDays] using (List.getElem?_eq_some_iff.1 hmon).1
      have hm1 : md.1 ≤ 1 := by
        by_contra hm
        have hlate := daysInto_late (show 2 ≤ md.1 by omega) hm12
        rcases hu : unsignedLeap sz z with _ | _ <;> rw [hu] at hdays <;> omega
      have hsame := daysInto_early hm1 (isLeap z) (unsignedLeap sz z)
      rcases month_early hm1 _ hmon with ⟨h0, rfl, h0d⟩ | ⟨h1, hn, h1d⟩
      · exact ⟨31, by rw [h0]; rfl, hdayn, hsame⟩
      · refine ⟨if isLeap z then 29 else 28, by rw [h1]; rfl, ?_, hsame⟩
        split_ifs <;> omega
  obtain ⟨n', hmon', hlt', hinto⟩ := htable
  obtain ⟨hsec, hmins, hhour⟩ := clock_ranges hrem hbounds.2
  have hclock := clock_spec (t.tmod 86400)
  have hnumber : dayNumber z (months (monthDays (unsignedLeap sz z)) (t / 86400 - start sz z)).1
      ((months (monthDays (unsignedLeap sz z)) (t / 86400 - start sz z)).2 + 1) = t / 86400 := by
    unfold dayNumber
    rw [hinto, ← hstart]
    omega
  rw [hfields]
  unfold fields
  constructor <;> simp only [hlong, hname]
  · exact hsec
  · exact hmins
  · exact hhour
  · exact ⟨n', hmon', by omega, by omega⟩
  · rw [hinto]
    omega
  · rw [hnumber, weekDay_eq, toLong_of_range (by omega) (by omega)]
  · rw [hnumber]
    omega

/-! ### From right fields to the condition -/

theorem Tells.day {tm : Tm} (h : Tells t tm) :
    dayNumber (1900 + tm.tm_year) tm.tm_mon tm.tm_mday = t / 86400 := by
  obtain ⟨hsec, hmin, hhour, -, -, -, hseconds⟩ := h
  omega

theorem Tells.yday_eq {tm : Tm} (h : Tells t tm) :
    tm.tm_yday = t / 86400 - daysBefore 1970 yearDays (1900 + tm.tm_year) := by
  have hday := h.day
  unfold dayNumber at hday
  have := h.yday
  omega

theorem Tells.yday_range {tm : Tm} (h : Tells t tm) :
    0 ≤ tm.tm_yday ∧ tm.tm_yday < yearDays (1900 + tm.tm_year) := by
  obtain ⟨n, hmon, hmd0, hmdn⟩ := h.mday
  have hend := month_end hmon
  have hyday := h.yday
  have hlen : yearDays (1900 + tm.tm_year) = if isLeap (1900 + tm.tm_year) then 366 else 365 := rfl
  omega

/-- The year that right fields name is the year of `t`. -/
theorem Tells.year_eq {tm : Tm} (h : Tells t tm) (hyear : InYear t y) : 1900 + tm.tm_year = y := by
  have hrange := h.yday_range
  have hyday := h.yday_eq
  refine year_unique yearDays_pos ?_ ?_ hyear.1 hyear.2
  · omega
  · rw [daysBefore_succ]
    omega

/-- The year and the day are those the loops used, although both were cut to their types. -/
theorem years_agree {z days D k j : Int}
    (hfit : -2 ^ (sz.bits - 1) ≤ y - 1900 ∧ y - 1900 < 2 ^ (sz.bits - 1))
    (hoff : days - start sz z = D - daysBefore 1970 yearDays y)
    (h0 : 0 ≤ days - start sz z) (h366 : days - start sz z ≤ 366)
    (hlong : -2 ^ 31 ≤ days ∧ days < 2 ^ 31) (hk : days = D + 2 ^ 32 * k)
    (hj : z - 1900 = y - 1900 + 2 ^ sz.bits * j) : z = y ∧ k = 0 := by
  have hzb := start_bounds sz z
  have hyb := daysBefore_yearDays_bounds y
  rcases year_bounds hfit with ⟨hb, hy0, hy1⟩ | ⟨hb, hy0, hy1⟩
  · -- the day number is small, so it is not cut, and both years are on its side of 1970
    have hk0 : k = 0 := by
      have : -12100000 ≤ daysBefore 1970 yearDays y ∧ daysBefore 1970 yearDays y ≤ 12100000 := by omega
      omega
    subst hk0
    rw [hb] at hj
    rcases le_or_gt 1970 z with h1 | h1 <;> rcases le_or_gt 1970 y with h2 | h2 <;> omega
  · -- a day number that fits `long` has a small year
    have hz : -5900000 ≤ z ∧ z ≤ 5900000 := by
      rcases le_or_gt 1970 z with h1 | h1 <;> omega
    rw [hb] at hj
    have hj0 : j = 0 := by omega
    obtain rfl : z = y := by omega
    refine ⟨rfl, ?_⟩
    rcases le_or_gt 1970 z with h1 | h1 <;> omega

/-- Where two leap rules disagree, a month that is right in both tables is January or February. -/
theorem early_of_both {leap leap' : Bool} {m : Nat} {d n n' : Int} (hne : leap ≠ leap')
    (hmon : (monthDays leap)[m]? = some n) (hmon' : (monthDays leap')[m]? = some n')
    (hn : d < n) (hn' : d < n') (hinto : daysInto (monthDays leap) m = daysInto (monthDays leap') m) :
    daysInto (monthDays leap) m + d < 59 := by
  have hm12 : m < 12 := by simpa [monthDays] using (List.getElem?_eq_some_iff.1 hmon).1
  have hm1 : m ≤ 1 := by
    by_contra hm
    have hlate := daysInto_late (show 2 ≤ m by omega) hm12
    rcases leap with _ | _ <;> rcases leap' with _ | _ <;> first | exact hne rfl | omega
  rcases month_early hm1 _ hmon with ⟨-, rfl, h0⟩ | ⟨h1, hlen, h31⟩
  · omega
  · rcases month_early hm1 _ hmon' with ⟨h0, -, -⟩ | ⟨-, hlen', -⟩
    · omega
    · rcases leap with _ | _ <;> rcases leap' with _ | _ <;> simp at hlen hlen' hne <;> omega

/-- The number of the weekday is wrong where adding 4 leaves the `long`. -/
theorem weekDay_fits {days : Int} (hlong : -2 ^ 31 ≤ days ∧ days < 2 ^ 31)
    (h : weekDay days = (4 + days) % 7) : days + 4 < 2 ^ 31 := by
  by_contra hover
  rw [weekDay_eq] at h
  obtain ⟨i, hi, himin, himax⟩ := toLong_cases (4 + days)
  generalize toLong (4 + days) = x at h hi himin himax
  obtain rfl : i = -1 := by omega
  omega

/-- Right fields come from the right year only. -/
theorem fits_of_tells (hfit : -2 ^ (sz.bits - 1) ≤ y - 1900 ∧ y - 1900 < 2 ^ (sz.bits - 1))
    (hyear : InYear t y) (h : Tells t (gmtime_r sz t)) : GmtimeFits sz t y := by
  obtain ⟨z, hzlo, hzhi, hfields⟩ := gmtime_fields sz t
  rw [hfields] at h
  have hrem : 0 ≤ t.tmod 86400 := by
    obtain ⟨hsec, hmin, hhour, -, -, -, -⟩ := h
    simp only [fields] at hsec hmin hhour
    have hclock := clock_spec (t.tmod 86400)
    omega
  have hday := h.day
  have hname := h.year_eq hyear
  have hyday := h.yday_eq
  have hrange := h.yday_range
  have hwday := h.wday
  obtain ⟨n, hmon, -, hmdn⟩ := h.mday
  have hinto := h.yday
  rw [hday] at hwday
  rw [hname] at hyday hrange hmon hinto
  obtain ⟨j, hj⟩ : ∃ j : Int, z - 1900 = y - 1900 + 2 ^ sz.bits * j := by
    have hmod := @Int.bmod_emod (z - 1900) (2 ^ sz.bits)
    push_cast at hmod
    change (sz.toInt (z - 1900)) % 2 ^ sz.bits = _ at hmod
    obtain ⟨j, hj⟩ := Int.dvd_of_emod_eq_zero (Int.emod_eq_emod_iff_emod_sub_eq_zero.1 hmod.symm)
    have hyearfield : sz.toInt (z - 1900) = y - 1900 := by
      change 1900 + sz.toInt (z - 1900) = y at hname
      omega
    exact ⟨j, by omega⟩
  simp only [fields] at hyday hrange hmon hinto hwday hmdn
  obtain ⟨m, hm, hm0, hmlt, hwalk⟩ := walk_spec hzlo hzhi
  obtain ⟨k, hk, hkmin, hkmax⟩ := toLong_cases (t.tdiv 86400)
  rw [tdiv_eq_floor hrem] at hk hkmin hkmax hzlo hzhi hyday hrange hmon hinto hwday hmdn hm hm0 hmlt hwalk
  obtain ⟨days, hdays⟩ : ∃ days, toLong (t / 86400) = days := ⟨_, rfl⟩
  rw [hdays] at hk hkmin hkmax hzlo hzhi hyday hrange hmon hinto hwday hmdn hm hm0 hmlt hwalk
  have hlen := yearDays_cases y
  obtain ⟨rfl, rfl⟩ := years_agree hfit hyday hrange.1 (by omega) ⟨hkmin, hkmax⟩ hk hj
  obtain rfl : days = t / 86400 := by omega
  have hbits := year_bounds hfit
  refine ⟨(tmod_nonneg_iff t).1 hrem, ⟨hkmin, weekDay_fits ⟨hkmin, hkmax⟩ hwday⟩,
    (start_iff (by omega)).1 (by omega), ?_⟩
  by_cases hleap : unsignedLeap sz z = isLeap z
  · exact .inl hleap
  · right
    have := early_of_both hleap hm hmon hmlt (by omega) (by omega)
    omega

/-- In a year that `tm_year` can hold, `gmtime_r` is right exactly where the condition holds. -/
theorem gmtime_tells_iff (sz : IntSize) (t y : Int) (hyear : InYear t y)
    (hfit : -2 ^ (sz.bits - 1) ≤ y - 1900 ∧ y - 1900 < 2 ^ (sz.bits - 1)) :
    Tells t (gmtime_r sz t) ↔ GmtimeFits sz t y :=
  ⟨fits_of_tells hfit hyear, tells_of_fits hfit hyear⟩

/-- The start of 1970. -/
theorem gmtime_tells_epoch : Tells 0 (gmtime_r .short 0) ↔ GmtimeFits .short 0 1970 :=
  gmtime_tells_iff .short 0 1970 ⟨by decide, by decide⟩ ⟨by decide, by decide⟩

/-- One second before 1970 has second -1. -/
theorem second_before_epoch : ¬ Tells (-1) (gmtime_r .short (-1)) := by
  intro h
  obtain ⟨z, -, -, hfields⟩ := gmtime_fields .short (-1)
  have hsec : (gmtime_r .short (-1)).tm_sec = -1 := by
    rw [hfields]
    rfl
  have := h.sec.1
  omega

end Fuzemsys.Libs.Time
