import Cron.Fault

-- Dates of the proleptic Gregorian calendar from year 1 to year 9999, and their numbering: the
-- first of January of year 1 is day 1. Main statements: a date's number lies between 1 and
-- `lastOrdinal`, and the day of the week is the number modulo seven.

namespace Cron

def isLeap (year : Nat) : Bool := year % 4 == 0 && (year % 100 != 0 || year % 400 == 0)

def monthLength (year month : Nat) : Nat :=
  if month = 2 then (if isLeap year then 29 else 28)
  else if month = 4 ∨ month = 6 ∨ month = 9 ∨ month = 11 then 30
  else 31

def lastYear : Nat := 9999

@[ext]
structure Date where
  year : Nat
  month : Nat
  day : Nat
  year_pos : 1 ≤ year
  year_le : year ≤ lastYear
  month_pos : 1 ≤ month
  month_le : month ≤ 12
  day_pos : 1 ≤ day
  day_le : day ≤ monthLength year month
deriving DecidableEq

namespace Date

def of (year month day : Int) : Except Fault Date :=
  if hy : 1 ≤ year.toNat ∧ year.toNat ≤ lastYear then
    if hm : 1 ≤ month.toNat ∧ month.toNat ≤ 12 then
      if hd : 1 ≤ day.toNat ∧ day.toNat ≤ monthLength year.toNat month.toNat then
        .ok ⟨year.toNat, month.toNat, day.toNat, hy.1, hy.2, hm.1, hm.2, hd.1, hd.2⟩
      else .error .dayOutOfRange
    else .error .monthOutOfRange
  else .error (.yearOutOfRange year)

def daysBeforeYear (year : Nat) : Nat :=
  let past := year - 1
  365 * past + past / 4 - past / 100 + past / 400

def daysThroughMonth (year : Nat) : Nat → Nat
  | 0 => 0
  | count + 1 => daysThroughMonth year count + monthLength year (count + 1)

-- The number of a date; the first of January of year 1 is day 1.
def ordinal (d : Date) : Nat :=
  daysBeforeYear d.year + daysThroughMonth d.year (d.month - 1) + d.day

def lastOrdinal : Nat := 3652059

-- The year that holds the day after `past` days: 400 years have 146097 days.
def yearAfterDays (past : Nat) : Nat :=
  let guess := past * 400 / 146097 + 1
  if daysBeforeYear (guess + 1) ≤ past then guess + 1 else guess

-- Of the first `count + 1` months of a year, the last that begins within `past` days.
def monthAfterDays (year past : Nat) : Nat → Nat
  | 0 => 1
  | count + 1 =>
    if daysThroughMonth year (count + 1) ≤ past then count + 2 else monthAfterDays year past count

def ofOrdinal (n : Int) : Except Fault Date :=
  if 1 ≤ n ∧ n ≤ lastOrdinal then
    let past := n.toNat - 1
    let year := yearAfterDays past
    let inYear := past - daysBeforeYear year
    let month := monthAfterDays year inYear 11
    of year month (inYear - daysThroughMonth year (month - 1) + 1 : Nat)
  else .error .pastCalendar

def weekday (d : Date) : Nat := d.ordinal % 7

def daysInMonth (d : Date) : Nat := monthLength d.year d.month

theorem monthLength_le (year month : Nat) : monthLength year month ≤ 31 := by
  unfold monthLength
  split
  · split <;> omega
  · split <;> omega

theorem daysThroughMonth_le {year : Nat} : daysThroughMonth year 12 ≤ 366 := by
  cases h : isLeap year <;> simp [daysThroughMonth, monthLength, h]

theorem daysThroughMonth_mono (year : Nat) {m n : Nat} (h : m ≤ n) :
    daysThroughMonth year m ≤ daysThroughMonth year n := by
  induction h with
  | refl => exact Nat.le_refl _
  | step _ ih => exact Nat.le_trans ih (Nat.le_add_right _ _)

theorem daysThroughMonth_pred_add_day_le (d : Date) :
    daysThroughMonth d.year (d.month - 1) + d.day ≤ daysThroughMonth d.year 12 := by
  have hm : d.month - 1 + 1 = d.month := Nat.sub_add_cancel d.month_pos
  have hs : daysThroughMonth d.year (d.month - 1) + monthLength d.year d.month =
      daysThroughMonth d.year d.month := by
    rw [← hm, daysThroughMonth, hm]
  have := daysThroughMonth_mono d.year d.month_le
  have := d.day_le
  omega

theorem ordinal_pos (d : Date) : 1 ≤ d.ordinal := by
  have := d.day_pos
  unfold ordinal
  omega

theorem ordinal_le (d : Date) : d.ordinal ≤ lastOrdinal := by
  have hd := d.daysThroughMonth_pred_add_day_le
  have hy := d.year_le
  have h366 := @daysThroughMonth_le d.year
  by_cases h : d.year = lastYear
  · have h9 : daysThroughMonth 9999 12 = 365 := by decide
    rw [h, lastYear] at hd
    unfold ordinal lastOrdinal
    rw [h, lastYear]
    have h0 : daysBeforeYear 9999 = 3651694 := by decide
    omega
  · unfold ordinal daysBeforeYear lastOrdinal
    unfold lastYear at hy h
    simp only
    omega

end Date

end Cron
