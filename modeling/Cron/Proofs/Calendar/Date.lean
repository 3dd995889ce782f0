import Mathlib
import Cron.Calendar.Date

namespace Cron.Date

variable {a b d : Date} {year month day : Int} {n y : Nat}

section Years

theorem isLeap_iff : isLeap y ↔ 4 ∣ y ∧ (¬100 ∣ y ∨ 400 ∣ y) := by
  simp [isLeap, Nat.dvd_iff_mod_eq_zero]

theorem daysThroughMonth_twelve (y : Nat) :
    daysThroughMonth y 12 = if isLeap y then 366 else 365 := by
  cases h : isLeap y <;> simp [daysThroughMonth, monthLength, h]

-- The days of a year, counted by months, are those by which the next year begins later.
theorem daysBeforeYear_succ (hy : 1 ≤ y) :
    daysBeforeYear (y + 1) = daysBeforeYear y + daysThroughMonth y 12 := by
  obtain ⟨past, rfl⟩ := Nat.exists_eq_add_of_le' hy
  have h4 : 100 ∣ past + 1 → 4 ∣ past + 1 := (by decide : 4 ∣ 100).trans
  have h100 : 400 ∣ past + 1 → 100 ∣ past + 1 := (by decide : 100 ∣ 400).trans
  have hle : past / 100 ≤ past / 4 := Nat.div_le_div_left (by decide) (by decide)
  simp only [daysThroughMonth_twelve, daysBeforeYear, Nat.add_sub_cancel, Nat.succ_div, isLeap_iff]
  by_cases h : 4 ∣ past + 1 <;> by_cases h' : 100 ∣ past + 1 <;> by_cases h'' : 400 ∣ past + 1 <;>
    simp_all <;> omega

theorem daysBeforeYear_mono {m n : Nat} (h : m ≤ n) : daysBeforeYear m ≤ daysBeforeYear n := by
  refine monotone_nat_of_le_succ (fun y => ?_) h
  rcases Nat.eq_zero_or_pos y with rfl | hy
  · exact Nat.le_refl _
  · rw [daysBeforeYear_succ hy]
    exact Nat.le_add_right _ _

theorem daysBeforeYear_lt_ordinal (d : Date) : daysBeforeYear d.year < d.ordinal := by
  have := d.day_pos
  rw [ordinal]
  omega

theorem ordinal_le_daysBeforeYear_succ (d : Date) : d.ordinal ≤ daysBeforeYear (d.year + 1) := by
  have := d.daysThroughMonth_pred_add_day_le
  rw [daysBeforeYear_succ d.year_pos, ordinal]
  omega

theorem ordinal_lt_of_year_lt (h : a.year < b.year) : a.ordinal < b.ordinal :=
  calc
    a.ordinal ≤ daysBeforeYear (a.year + 1) := a.ordinal_le_daysBeforeYear_succ
    _ ≤ daysBeforeYear b.year := daysBeforeYear_mono h
    _ < b.ordinal := b.daysBeforeYear_lt_ordinal

theorem year_le_of_ordinal_le (h : a.ordinal ≤ b.ordinal) : a.year ≤ b.year :=
  Nat.le_of_not_lt fun hlt => Nat.not_lt.mpr h <| ordinal_lt_of_year_lt hlt

end Years

section Months

theorem daysThroughMonth_pred {m : Nat} (h : 1 ≤ m) :
    daysThroughMonth y m = daysThroughMonth y (m - 1) + monthLength y m := by
  have hm : m - 1 + 1 = m := Nat.sub_add_cancel h
  rw [← hm, daysThroughMonth, hm]

theorem ordinal_lt_of_month_lt (hy : a.year = b.year) (h : a.month < b.month) :
    a.ordinal < b.ordinal := by
  have hm := daysThroughMonth_mono b.year (Nat.le_sub_one_of_lt h)
  have ha : daysThroughMonth a.year a.month = _ := daysThroughMonth_pred a.month_pos
  have hd := a.day_le
  have := b.day_pos
  rw [hy] at ha hd
  rw [ordinal, ordinal, hy]
  omega

theorem month_le_of_ordinal_le (hy : a.year = b.year) (h : a.ordinal ≤ b.ordinal) :
    a.month ≤ b.month :=
  Nat.le_of_not_lt fun hlt => Nat.not_lt.mpr h <| ordinal_lt_of_month_lt hy.symm hlt

theorem ordinal_add_day (hy : a.year = b.year) (hm : a.month = b.month) :
    a.ordinal + b.day = b.ordinal + a.day := by
  rw [ordinal, ordinal, hy, hm]
  omega

theorem eq_of_ordinal_eq (h : a.ordinal = b.ordinal) : a = b := by
  have hy : a.year = b.year := Nat.le_antisymm (year_le_of_ordinal_le <| Nat.le_of_eq h)
    (year_le_of_ordinal_le <| Nat.le_of_eq h.symm)
  have hm : a.month = b.month := Nat.le_antisymm (month_le_of_ordinal_le hy <| Nat.le_of_eq h)
    (month_le_of_ordinal_le hy.symm <| Nat.le_of_eq h.symm)
  have := ordinal_add_day hy hm
  exact Date.ext hy hm (by omega)

-- Before the first of a month there are only earlier months, and before the first of January only
-- earlier years.
theorem month_lt_of_ordinal_lt (hy : a.year = b.year) (hb : b.day = 1) (h : a.ordinal < b.ordinal) :
    a.month < b.month := by
  refine Nat.lt_of_le_of_ne (month_le_of_ordinal_le hy <| Nat.le_of_lt h) fun hm => ?_
  have := ordinal_add_day hy hm
  have := a.day_pos
  omega

theorem year_lt_of_ordinal_lt (hm : b.month = 1) (hb : b.day = 1) (h : a.ordinal < b.ordinal) :
    a.year < b.year := by
  refine Nat.lt_of_le_of_ne (year_le_of_ordinal_le <| Nat.le_of_lt h) fun hy => ?_
  have := month_lt_of_ordinal_lt hy hb h
  have := a.month_pos
  omega

end Months

section Making

theorem of_eq_ok (hy : 1 ≤ year ∧ year ≤ lastYear) (hm : 1 ≤ month ∧ month ≤ 12)
    (hd : 1 ≤ day ∧ day ≤ monthLength year.toNat month.toNat) :
    ∃ d : Date, of year month day = .ok d ∧ (d.year : Int) = year ∧ (d.month : Int) = month ∧
      (d.day : Int) = day := by
  rw [of, dif_pos (by omega), dif_pos (by omega), dif_pos (by omega)]
  exact ⟨_, rfl, by simp; omega, by simp; omega, by simp; omega⟩

theorem one_le_monthLength (year month : Nat) : 1 ≤ monthLength year month := by
  unfold monthLength
  split
  · split <;> omega
  · split <;> omega

-- Every month has a first day.
theorem of_one_eq_ok (hy : 1 ≤ year ∧ year ≤ lastYear) (hm : 1 ≤ month ∧ month ≤ 12) :
    ∃ d : Date, of year month 1 = .ok d ∧ (d.year : Int) = year ∧ (d.month : Int) = month ∧
      (d.day : Int) = 1 :=
  have := one_le_monthLength year.toNat month.toNat
  of_eq_ok hy hm ⟨Int.le_refl _, by omega⟩

-- A date has the year, the month and the day that it was made of.
theorem fields_of_eq_ok (h : of year month day = .ok d) :
    (d.year : Int) = year ∧ (d.month : Int) = month ∧ (d.day : Int) = day := by
  rw [of] at h
  split at h
  case isFalse => cases h
  case isTrue =>
    split at h
    case isFalse => cases h
    case isTrue =>
      split at h
      case isFalse => cases h
      case isTrue =>
        cases h
        dsimp only
        omega

theorem of_eq_error (hy : (lastYear : Int) < year) :
    of year month day = .error (.yearOutOfRange year) := by
  rw [of, dif_neg (by omega)]

end Making

section Numbers

-- The guess from the mean length of a year is right or one too low.
theorem yearAfterDays_eq (past : Nat) :
    1 ≤ yearAfterDays past ∧ daysBeforeYear (yearAfterDays past) ≤ past ∧
      past < daysBeforeYear (yearAfterDays past + 1) := by
  simp only [yearAfterDays]
  split
  case isTrue h =>
    refine ⟨by omega, h, ?_⟩
    simp only [daysBeforeYear] at h ⊢
    omega
  case isFalse h =>
    refine ⟨by omega, ?_, by omega⟩
    simp only [daysBeforeYear] at h ⊢
    omega

theorem monthAfterDays_eq (year past : Nat) {count : Nat}
    (h : past < daysThroughMonth year (count + 1)) :
    1 ≤ monthAfterDays year past count ∧ monthAfterDays year past count ≤ count + 1 ∧
      daysThroughMonth year (monthAfterDays year past count - 1) ≤ past ∧
      past < daysThroughMonth year (monthAfterDays year past count) := by
  induction count
  case zero => exact ⟨Nat.le_refl _, Nat.le_refl _, Nat.zero_le _, h⟩
  case succ count hi =>
    rw [monthAfterDays]
    split
    case isTrue hle => exact ⟨by omega, Nat.le_refl _, hle, h⟩
    case isFalse hlt =>
      have ⟨h₁, h₂, h₃⟩ := hi (Nat.lt_of_not_le hlt)
      exact ⟨h₁, by omega, h₃⟩

-- Every number of the calendar is the number of a date.
theorem ofOrdinal_eq_ok {n : Int} (h : 1 ≤ n ∧ n ≤ lastOrdinal) :
    ∃ d : Date, ofOrdinal n = .ok d ∧ (d.ordinal : Int) = n := by
  let past := n.toNat - 1
  let year := yearAfterDays past
  let inYear := past - daysBeforeYear year
  let month := monthAfterDays year inYear 11
  obtain ⟨hy, hle, hlt⟩ :
      1 ≤ year ∧ daysBeforeYear year ≤ past ∧ past < daysBeforeYear (year + 1) :=
    yearAfterDays_eq past
  have hy' : year ≤ lastYear := by
    refine Nat.le_of_not_lt fun h => ?_
    have h' : daysBeforeYear 10000 ≤ daysBeforeYear year := daysBeforeYear_mono h
    have : daysBeforeYear 10000 = 3652059 := rfl
    have : lastOrdinal = 3652059 := rfl
    omega
  rw [daysBeforeYear_succ hy] at hlt
  have hin : inYear < daysThroughMonth year 12 := by omega
  obtain ⟨hm, hm', hmle, hmlt⟩ :
      1 ≤ month ∧ month ≤ 12 ∧ daysThroughMonth year (month - 1) ≤ inYear ∧
        inYear < daysThroughMonth year month :=
    monthAfterDays_eq year inYear hin
  rw [daysThroughMonth_pred hm] at hmlt
  let day := inYear - daysThroughMonth year (month - 1) + 1
  have hday : 1 ≤ (day : Int) ∧ (day : Int) ≤ monthLength year month := by omega
  obtain ⟨d, hd, hdy, hdm, hdd⟩ : ∃ d : Date, of year month day = .ok d ∧ (d.year : Int) = year ∧
      (d.month : Int) = month ∧ (d.day : Int) = day := of_eq_ok (by omega) (by omega) hday
  refine ⟨d, by rw [ofOrdinal, if_pos h]; exact hd, ?_⟩
  have hdy : d.year = year := by omega
  have hdm : d.month = month := by omega
  rw [ordinal, hdy, hdm]
  omega

theorem ofOrdinal_eq_error {n : Int} (h : (lastOrdinal : Int) < n) :
    ofOrdinal n = .error .pastCalendar := by
  rw [ofOrdinal, if_neg (by omega)]

end Numbers

end Cron.Date
