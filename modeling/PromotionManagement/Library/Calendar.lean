import Mathlib.Tactic.IntervalCases
import Mathlib.Algebra.Order.Ring.Nat

namespace PromotionManagement.Library
set_option autoImplicit true

namespace Calendar

/-- The leap years of the Gregorian calendar, carried back to year 0. -/
def isLeapYear (year : Nat) : Bool := year % 4 = 0 && (year % 100 ≠ 0 || year % 400 = 0)

def daysInMonth (year month : Nat) : Nat :=
  if month = 2 then if isLeapYear year then 29 else 28
  else if month = 4 ∨ month = 6 ∨ month = 9 ∨ month = 11 then 30
  else 31

def daysInYear (year : Nat) : Nat := if isLeapYear year then 366 else 365

/-- The days from the first day of year 0 to that of a year. -/
def daysBeforeYear : Nat → Nat
  | 0 => 0
  | year + 1 => daysBeforeYear year + daysInYear year

/-- The days of a year before one of its months, which count from 1. -/
def daysBeforeMonth (year : Nat) : Nat → Nat
  | 0 => 0
  | 1 => 0
  | month + 2 => daysBeforeMonth year (month + 1) + daysInMonth year (month + 1)

theorem daysBeforeYear_mono (h : year ≤ year') : daysBeforeYear year ≤ daysBeforeYear year' := by
  induction h with
  | refl => exact Nat.le_refl _
  | step h ih => exact ih.trans (Nat.le_add_right _ _)

/-- A month ends within its year. -/
theorem month_end (year : Nat) (hm : 1 ≤ month) (hm' : month ≤ 12) :
    daysBeforeMonth year month + daysInMonth year month ≤ daysInYear year := by
  cases hl : isLeapYear year with
  | false =>
    interval_cases month
    all_goals simp [daysBeforeMonth, daysInMonth, daysInYear, hl]
  | true =>
    interval_cases month
    all_goals simp [daysBeforeMonth, daysInMonth, daysInYear, hl]

end Calendar

/-- A day of the calendar. -/
structure CivilDate where
  year : Nat
  month : Nat
  day : Nat
  month_pos : 1 ≤ month
  month_le : month ≤ 12
  day_pos : 1 ≤ day
  day_le : day ≤ Calendar.daysInMonth year month
deriving DecidableEq

namespace CivilDate
open Calendar

/-- The days from the first day of year 0. -/
def days (date : CivilDate) : Nat :=
  daysBeforeYear date.year + daysBeforeMonth date.year date.month + (date.day - 1)

theorem le_days (date : CivilDate) : daysBeforeYear date.year ≤ date.days := by
  rw [days]
  omega

/-- A day falls before the end of its year. -/
theorem days_lt (date : CivilDate) : date.days < daysBeforeYear (date.year + 1) := by
  have hend := month_end date.year date.month_pos date.month_le
  have hday := date.day_le
  have hpos := date.day_pos
  rw [days, daysBeforeYear]
  omega

/-- The days of a year are those from its first day to that of the next. -/
theorem le_year_iff (date : CivilDate) (year : Nat) :
    year ≤ date.year ↔ daysBeforeYear year ≤ date.days := by
  constructor
  · intro h
    exact (daysBeforeYear_mono h).trans date.le_days
  · intro h
    by_contra hlt
    have hmono := daysBeforeYear_mono (Nat.succ_le_of_lt (Nat.lt_of_not_le hlt))
    exact absurd (h.trans_lt date.days_lt) (Nat.not_lt.2 hmono)

end CivilDate

end PromotionManagement.Library
