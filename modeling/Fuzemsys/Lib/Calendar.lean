import Mathlib.Algebra.BigOperators.Group.Finset.Basic
import Mathlib.Algebra.BigOperators.Intervals
import Mathlib.Algebra.Order.BigOperators.Group.Finset
import Mathlib.Order.SuccPred.Archimedean
import Mathlib.Data.Int.ConditionallyCompleteOrder
import Mathlib.Algebra.Order.Group.Int
import Mathlib.Tactic.Ring

/-!
# Calendars

Days are counted from the first day of one year, in both directions. A calendar is the
length of every year, and the Gregorian one is an instance.
-/

open scoped BigOperators

namespace Fuzemsys.Lib.Calendar

variable {epoch : Int} {len : Int → Int}

/-- The days from the first day of `epoch` to the first day of year `y`. -/
def daysBefore (epoch : Int) (len : Int → Int) (y : Int) : Int :=
  ∑ k ∈ Finset.range (y - epoch).toNat, len (epoch + k) -
    ∑ k ∈ Finset.range (epoch - y).toNat, len (epoch - 1 - k)

@[simp]
theorem daysBefore_epoch : daysBefore epoch len epoch = 0 := by simp [daysBefore]

theorem daysBefore_succ (epoch : Int) (len : Int → Int) (y : Int) :
    daysBefore epoch len (y + 1) = daysBefore epoch len y + len y := by
  unfold daysBefore
  rcases le_or_gt epoch y with h | h
  · obtain ⟨n, rfl⟩ : ∃ n : Nat, y = epoch + n := ⟨(y - epoch).toNat, by omega⟩
    have hup : (epoch + n + 1 - epoch).toNat = n + 1 := by omega
    have hnow : (epoch + n - epoch).toNat = n := by omega
    have hdown : (epoch - (epoch + n + 1)).toNat = 0 ∧ (epoch - (epoch + n)).toNat = 0 := by omega
    rw [hup, hnow, hdown.1, hdown.2, Finset.sum_range_succ]
    ring
  · obtain ⟨n, rfl⟩ : ∃ n : Nat, y = epoch - 1 - n := ⟨(epoch - 1 - y).toNat, by omega⟩
    have hup : (epoch - (epoch - 1 - n)).toNat = n + 1 := by omega
    have hnow : (epoch - (epoch - 1 - n + 1)).toNat = n := by omega
    have hdown : (epoch - 1 - n + 1 - epoch).toNat = 0 ∧ (epoch - 1 - n - epoch).toNat = 0 := by omega
    rw [hup, hnow, hdown.1, hdown.2, Finset.sum_range_succ]
    ring

theorem daysBefore_strictMono (hlen : ∀ y, 0 < len y) : StrictMono (daysBefore epoch len) := by
  apply strictMono_int_of_lt_succ
  intro y
  have := hlen y
  rw [daysBefore_succ]
  omega

/-- A day lies in one year only. -/
theorem year_unique (hlen : ∀ y, 0 < len y) {d y z : Int}
    (hy : daysBefore epoch len y ≤ d) (hy' : d < daysBefore epoch len (y + 1))
    (hz : daysBefore epoch len z ≤ d) (hz' : d < daysBefore epoch len (z + 1)) : y = z := by
  have hmono : StrictMono (daysBefore epoch len) := daysBefore_strictMono hlen
  have hyz : y < z + 1 := hmono.lt_iff_lt.1 (hy.trans_lt hz')
  have hzy : z < y + 1 := hmono.lt_iff_lt.1 (hz.trans_lt hy')
  omega

/-- Bounds on the years bound the days on both sides of the epoch. -/
theorem daysBefore_bounds {lo hi : Int} (hlo : ∀ y, lo ≤ len y) (hhi : ∀ y, len y ≤ hi) (y : Int) :
    (epoch ≤ y → lo * (y - epoch) ≤ daysBefore epoch len y ∧ daysBefore epoch len y ≤ hi * (y - epoch)) ∧
    (y ≤ epoch → hi * (y - epoch) ≤ daysBefore epoch len y ∧ daysBefore epoch len y ≤ lo * (y - epoch)) := by
  constructor
  · intro hy
    induction y, hy using Int.leInduction with
    | base => simp
    | succ y _ ih =>
      have h1 := hlo y
      have h2 := hhi y
      have hstep : ∀ k : Int, k * (y + 1 - epoch) = k * (y - epoch) + k := fun k => by ring
      rw [daysBefore_succ, hstep, hstep]
      omega
  · intro hy
    induction y, hy using Int.leInductionDown with
    | base => simp
    | pred y _ ih =>
      have h1 := hlo (y - 1)
      have h2 := hhi (y - 1)
      have hstep := daysBefore_succ epoch len (y - 1)
      rw [sub_add_cancel] at hstep
      have hback : ∀ k : Int, k * (y - 1 - epoch) = k * (y - epoch) - k := fun k => by ring
      rw [hback, hback]
      omega

/-! ## The Gregorian calendar -/

/-- Every fourth year, but of the centuries only every fourth. -/
def isLeap (y : Int) : Bool := y % 4 = 0 && (y % 100 ≠ 0 || y % 400 = 0)

def yearDays (y : Int) : Int := if isLeap y then 366 else 365

def monthDays (leap : Bool) : List Int :=
  [31, if leap then 29 else 28, 31, 30, 31, 30, 31, 31, 30, 31, 30, 31]

/-- The days of a year before its month `m`, counted from 0. -/
def daysInto (months : List Int) (m : Nat) : Int := (months.take m).sum

theorem yearDays_cases (y : Int) : yearDays y = 365 ∨ yearDays y = 366 := by
  unfold yearDays
  split_ifs <;> simp

theorem yearDays_pos (y : Int) : 0 < yearDays y := by
  rcases yearDays_cases y with h | h <;> omega

/-- Days from 1970-01-01. -/
def dayNumber (y : Int) (m : Nat) (mday : Int) : Int :=
  daysBefore 1970 yearDays y + daysInto (monthDays (isLeap y)) m + (mday - 1)

end Fuzemsys.Lib.Calendar
