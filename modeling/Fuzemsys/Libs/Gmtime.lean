import Fuzemsys.Lib.Calendar

/-!
# gmtime_r

The year is found by stepping over whole years from 1970, in an unsigned `int`.
-/

open Fuzemsys.Lib.Calendar

namespace Fuzemsys.Libs.Time

/-! ## Types -/

/-- The width of `int`. A `long` has 32 bits in both cases. -/
inductive IntSize where
  | short
  | full
  deriving DecidableEq, Repr

def IntSize.bits : IntSize → Nat
  | .short => 16
  | .full => 32

def IntSize.toInt (sz : IntSize) (x : Int) : Int := x.bmod (2 ^ sz.bits)

def IntSize.toUnsigned (sz : IntSize) (x : Int) : Int := x % 2 ^ sz.bits

def toLong (x : Int) : Int := x.bmod (2 ^ 32)

/-- `struct tm` without `tm_isdst`, which `gmtime_r` does not set. -/
structure Tm where
  tm_sec : Int
  tm_min : Int
  tm_hour : Int
  tm_mday : Int
  tm_mon : Nat
  tm_year : Int
  tm_wday : Int
  tm_yday : Int
  deriving DecidableEq, Repr

/-! ## The function -/

def SECS_PER_DAY : Int := 86400
def SECS_PER_HOUR : Int := 3600

def isleap (year : Int) : Bool := year % 4 = 0 && (year % 100 ≠ 0 || year % 400 = 0)

def mon_lengths (leap : Bool) : List Int :=
  if leap then [31, 29, 31, 30, 31, 30, 31, 31, 30, 31, 30, 31]
  else [31, 28, 31, 30, 31, 30, 31, 31, 30, 31, 30, 31]

def yearLength (y : Int) : Int := if isleap y then 366 else 365

theorem yearLength_cases (y : Int) : yearLength y = 365 ∨ yearLength y = 366 := by
  unfold yearLength
  split_ifs <;> simp

/-- `while (days >= (rem = __isleap(y) ? 366 : 365))`. -/
def yearsUp (sz : IntSize) (y days : Int) : Int × Int :=
  if yearLength y ≤ days then yearsUp sz (sz.toUnsigned (y + 1)) (days - yearLength y) else (y, days)
  termination_by days.toNat
  decreasing_by have := yearLength_cases y; omega

/-- `while (days < 0)`. -/
def yearsDown (sz : IntSize) (y days : Int) : Int × Int :=
  if days < 0 then
    yearsDown sz (sz.toUnsigned (y - 1)) (days + yearLength (sz.toUnsigned (y - 1)))
  else (y, days)
  termination_by (-days).toNat
  decreasing_by have := yearLength_cases (sz.toUnsigned (y - 1)); omega

/-- `while (days >= ip[y]) days -= ip[y++]`. The days of a year never run past the table. -/
def months : List Int → Int → Nat × Int
  | [], days => (0, days)
  | n :: ip, days =>
    if n ≤ days then
      let (y, rest) := months ip (days - n)
      (y + 1, rest)
    else (0, days)

def weekDay (days : Int) : Int :=
  let wday := (toLong (4 + days)).tmod 7
  if wday < 0 then wday + 7 else wday

def compute_tm (sz : IntSize) (days rem : Int) : Tm :=
  let minutes := rem.tmod SECS_PER_HOUR
  let (y, days') := yearsUp sz 1970 days
  let (y, days') := yearsDown sz y days'
  let (mon, mday) := months (mon_lengths (isleap y)) days'
  { tm_hour := sz.toInt (rem.tdiv SECS_PER_HOUR)
    tm_min := minutes.tdiv 60
    tm_sec := minutes.tmod 60
    tm_wday := weekDay days
    tm_year := sz.toInt (sz.toUnsigned (y - 1900))
    tm_yday := days'
    tm_mon := mon
    tm_mday := mday + 1 }

/-- A `time_t` is a signed integer of 64 bits or an unsigned one of 32. -/
def tm_conv (sz : IntSize) (t : Int) : Tm :=
  compute_tm sz (toLong (t.tdiv SECS_PER_DAY)) (toLong (t.tmod SECS_PER_DAY))

def gmtime_r (sz : IntSize) (timep : Int) : Tm := tm_conv sz timep

/-! ## What the fields should be -/

/-- The fields are the date and time of `t`. -/
structure Tells (t : Int) (tm : Tm) : Prop where
  sec : 0 ≤ tm.tm_sec ∧ tm.tm_sec < 60
  min : 0 ≤ tm.tm_min ∧ tm.tm_min < 60
  hour : 0 ≤ tm.tm_hour ∧ tm.tm_hour < 24
  mday : ∃ n, (monthDays (isLeap (1900 + tm.tm_year)))[tm.tm_mon]? = some n ∧
    1 ≤ tm.tm_mday ∧ tm.tm_mday ≤ n
  yday : tm.tm_yday = daysInto (monthDays (isLeap (1900 + tm.tm_year))) tm.tm_mon + (tm.tm_mday - 1)
  wday : tm.tm_wday = (4 + dayNumber (1900 + tm.tm_year) tm.tm_mon tm.tm_mday) % 7
  seconds : 86400 * dayNumber (1900 + tm.tm_year) tm.tm_mon tm.tm_mday +
    3600 * tm.tm_hour + 60 * tm.tm_min + tm.tm_sec = t

/-- Year `y` is the year of `t`. -/
def InYear (t y : Int) : Prop :=
  daysBefore 1970 yearDays y ≤ t / 86400 ∧ t / 86400 < daysBefore 1970 yearDays (y + 1)

/-- The leap years from `y` up to 1969. -/
def leapsSince (leap : Int → Bool) (y : Int) : Nat :=
  ((List.range (1970 - y).toNat).filter fun k : Nat => leap (1969 - k)).length

/-- The leap rule as the unsigned year has it. -/
def unsignedLeap (sz : IntSize) (y : Int) : Bool := isleap (sz.toUnsigned y)

/-- Where `gmtime_r` is right in year `y`: the time is not inside a day before 1970, its day number
fits a `long` with 4 added, and before 1970 the unsigned year tells leap years well enough. -/
def GmtimeFits (sz : IntSize) (t y : Int) : Prop :=
  (0 ≤ t ∨ 86400 ∣ t) ∧ (-2 ^ 31 ≤ t / 86400 ∧ t / 86400 + 4 < 2 ^ 31) ∧
  leapsSince (unsignedLeap sz) y = leapsSince isLeap y ∧
  (unsignedLeap sz y = isLeap y ∨ t / 86400 - daysBefore 1970 yearDays y < 59)

end Fuzemsys.Libs.Time
