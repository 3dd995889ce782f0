import Cron.Advance
import Cron.Proofs.Calendar.Instant
import Cron.Proofs.Except
import Cron.Proofs.Expr.Values

namespace Cron.Layout

open Instant

variable {ι : Type} {l : Layout} {c : Column} {e : Expr ι} {t u : Instant} {d : Date} {n : Int}

section Units

-- On the days before a later day of the same month, month and year do not change.
theorem leads_day (hy : d.year = t.year) (hm : d.month = t.month) (hd : t.day < d.day) :
    Leads t (.ok (t.startOf d)) fun u => t.day ≤ u.day ∧ u.day < d.day := by
  have ho := Date.ordinal_add_day hy hm
  simp only [day] at hd
  refine (leads_startOf <| by omega).imp fun u hu hx => ?_
  obtain ⟨hle, hlt⟩ := hx
  have hyu : t.year = u.year := Nat.le_antisymm (year_le_of_ticks_le hu) <|
    hy ▸ Date.year_le_of_ordinal_le (Nat.le_of_lt hlt)
  have hmu : t.month = u.month := Nat.le_antisymm (month_le_of_ticks_le hyu hu) <|
    hm ▸ Date.month_le_of_ordinal_le (hyu.symm.trans hy.symm) (Nat.le_of_lt hlt)
  have hou := Date.ordinal_add_day hyu hmu
  simp only [day]
  omega

theorem leads_month (hy : d.year = t.year) (hm : t.month < d.month) (hd : d.day = 1) :
    Leads t (.ok (t.startOf d)) fun u =>
      u.year = t.year ∧ t.month ≤ u.month ∧ u.month < d.month := by
  have ho := Date.ordinal_lt_of_month_lt hy.symm hm
  refine (leads_startOf ho).imp fun u hu ⟨hle, hlt⟩ => ?_
  have hyu : t.year = u.year := Nat.le_antisymm (year_le_of_ticks_le hu) <|
    hy ▸ Date.year_le_of_ordinal_le (Nat.le_of_lt hlt)
  refine ⟨hyu.symm, month_le_of_ticks_le hyu hu, ?_⟩
  exact Date.month_lt_of_ordinal_lt (hyu.symm.trans hy.symm) hd hlt

theorem leads_year (hy : t.year < d.year) (hm : d.month = 1) (hd : d.day = 1) :
    Leads t (.ok (t.startOf d)) fun u => t.year ≤ u.year ∧ u.year < d.year :=
  (leads_startOf <| Date.ordinal_lt_of_year_lt hy).imp fun _ hu ⟨_, hlt⟩ =>
    ⟨year_le_of_ticks_le hu, Date.year_lt_of_ordinal_lt hm hd hlt⟩

-- The next year begins after all instants of this one, or the calendar ends with it.
theorem leads_newYear (t : Instant) :
    Leads t ((Date.of (t.year + 1) 1 1).map t.startOf) fun u => u.year = t.year := by
  by_cases hy : t.year < lastYear
  case pos =>
    obtain ⟨d, hok, hdy, hdm, hdd⟩ : ∃ d : Date, Date.of (t.year + 1) 1 1 = .ok d ∧ _ :=
      Date.of_one_eq_ok (by omega) (by omega)
    rw [hok]
    refine (leads_year (d := d) (by omega) (by omega) (by omega)).imp fun u _ hu => ?_
    omega
  case neg =>
    rw [Date.of_eq_error (by omega)]
    refine ⟨nofun, nofun, fun u hu _ => ?_⟩
    have := year_le_of_ticks_le hu
    have : u.year ≤ lastYear := u.date.year_le
    omega

theorem leads_newMonth (t : Instant) :
    Leads t (roll .dayOfMonth t) fun u => u.year = t.year ∧ u.month = t.month := by
  rw [roll]
  split
  case isTrue hm =>
    refine (leads_newYear t).imp fun u hu hy => ⟨hy, ?_⟩
    have := month_le_of_ticks_le hy.symm hu
    have : u.month ≤ 12 := u.date.month_le
    omega
  case isFalse hm =>
    have hle : t.month ≤ 12 := t.date.month_le
    have hy : 1 ≤ t.year ∧ t.year ≤ lastYear := ⟨t.date.year_pos, t.date.year_le⟩
    obtain ⟨d, hok, hdy, hdm, hdd⟩ : ∃ d : Date, Date.of t.year (t.month + 1) 1 = .ok d ∧ _ :=
      Date.of_one_eq_ok (by omega) (by omega)
    rw [hok]
    refine (leads_month (d := d) (by omega) (by omega) (by omega)).imp fun u _ hu => ?_
    omega

theorem roll_minute (t : Instant) :
    roll .minute t = t.ofTicks (t.ticks - t.clock % hourMicros + hourMicros : Nat) := by
  have hn : (t.ticks : Int) - t.clock % hourMicros + hourMicros =
      ((t.ticks - t.clock % hourMicros + hourMicros : Nat) : Int) := by
    simp only [ticks, hourMicros] at *
    omega
  rw [roll, hn]

-- The next hour begins after all instants of this one.
theorem leads_newHour (t : Instant) :
    Leads t (roll .minute t) fun u => t.date = u.date ∧ t.hour = u.hour := by
  have hc := t.clock_lt
  rw [roll_minute]
  refine (leads_ofTicks ?_ ?_).imp fun u _ hx => ?_
  · simp only [hourMicros]
    omega
  · simp only [ticks, hourMicros, dayMicros, minuteMicros] at *
    omega
  · have := u.clock_lt
    have ho : t.date.ordinal = u.date.ordinal := by
      simp only [ticks, hourMicros, dayMicros] at *
      omega
    refine ⟨Date.eq_of_ordinal_eq ho, ?_⟩
    simp only [hour, ticks, hourMicros, dayMicros] at *
    omega

-- Counting on by days from midnight leads to the beginning of a later day.
theorem midnight_addDays (t : Instant) (k : Nat) :
    t.midnight.addDays k = t.ofTicks (dayMicros * (t.date.ordinal + k) : Nat) := by
  have hn : (t.midnight.ticks : Int) + dayMicros * k =
      ((dayMicros * (t.date.ordinal + k) : Nat) : Int) := by
    simp only [ticks, midnight]
    push_cast
    ring
  rw [addDays, add, hn]
  rfl

-- The day some days later begins after all instants of the days before it.
theorem leads_addDays (t : Instant) {k : Nat} (hk : 1 ≤ k) :
    Leads t (t.midnight.addDays k) fun u =>
      t.date.ordinal ≤ u.date.ordinal ∧ u.date.ordinal < t.date.ordinal + k := by
  have hc := t.clock_lt
  rw [midnight_addDays]
  refine (leads_ofTicks ?_ ?_).imp fun u hu hx => ⟨ordinal_le_of_ticks_le hu, ?_⟩
  · simp only [ticks, dayMicros] at *
    omega
  · simp only [dayMicros, minuteMicros]
    omega
  · simp only [ticks, dayMicros] at *
    omega

-- Whether two instants lie in one of the units within which a column counts: in an hour for
-- minutes, a day for hours, a month for days, a year for months. Years count within the calendar.
def SameUnit : Column → Instant → Instant → Prop
  | .minute, t, u                   => t.date = u.date ∧ t.hour = u.hour
  | .hour, t, u                     => t.date = u.date
  | .dayOfMonth, t, u               => t.year = u.year ∧ t.month = u.month
  | .month, t, u                    => t.year = u.year
  | .dayOfWeek, _, _ | .year, _, _  => True

theorem SameUnit.refl (c : Column) (t : Instant) : SameUnit c t t := by
  cases c <;> simp [SameUnit]

-- The unit reaches as far as its instants do.
theorem SameUnit.reaches_valueAt (h : SameUnit c t u) : reaches c t (l.valueAt c u) := by
  cases c
  case dayOfMonth =>
    have hd : u.day ≤ monthLength u.year u.month := u.date.day_le
    rw [← h.1, ← h.2] at hd
    exact decide_eq_true <| Int.ofNat_le.mpr hd
  case year => exact decide_eq_true <| Int.ofNat_le.mpr u.date.year_le
  all_goals rfl

-- The next unit begins after all instants of this one.
theorem leads_unit (hc : c ≠ .dayOfWeek) (hy : c ≠ .year) (t : Instant) :
    Leads t (roll c t) (SameUnit c t ·) := by
  cases c
  case minute => exact leads_newHour t
  case hour =>
    refine (leads_addDays t (Nat.le_refl 1)).imp fun u _ ⟨hle, hlt⟩ => ?_
    exact Date.eq_of_ordinal_eq (by omega)
  case dayOfMonth => exact (leads_newMonth t).imp fun u _ ⟨hy, hm⟩ => ⟨hy.symm, hm.symm⟩
  case month      => exact (leads_newYear t).imp fun u _ hy => hy.symm
  case dayOfWeek  => exact absurd rfl hc
  case year       => exact absurd rfl hy

-- Within its unit a column counts up.
theorem SameUnit.valueAt_le (h : SameUnit c t u) (hc : c ≠ .dayOfWeek) (hu : t.ticks ≤ u.ticks) :
    l.valueAt c t ≤ l.valueAt c u := by
  cases c
  case minute =>
    have hle := clock_le_of_ticks_le h.1 hu
    have hh := h.2
    simp only [valueAt, hour, minute, hourMicros, minuteMicros] at *
    omega
  case hour =>
    have hle := clock_le_of_ticks_le h hu
    simp only [valueAt, hour, hourMicros]
    omega
  case dayOfMonth => exact Int.ofNat_le.mpr <| day_le_of_ticks_le h.1 h.2 hu
  case month      => exact Int.ofNat_le.mpr <| month_le_of_ticks_le h hu
  case year       => exact Int.ofNat_le.mpr <| year_le_of_ticks_le hu
  case dayOfWeek  => exact absurd rfl hc

end Units

section Values

-- The first instant at which a column has a later value: the column counts up to it.
theorem leads_moveTo (hc : c ≠ .dayOfWeek) (ht : l.valueAt c t < n)
    (hn : c ≠ .year → n ∈ l.domain c) (hr : reaches c t n) :
    ∃ d, moveTo c t n = .ok d ∧
      Leads t (.ok d) fun u => l.valueAt c t ≤ l.valueAt c u ∧ l.valueAt c u < n := by
  cases c
  case dayOfWeek => exact absurd rfl hc
  case minute =>
    have hn : 0 ≤ n ∧ n ≤ 59 := hn (by simp)
    have hh := t.clock_lt
    simp only [valueAt] at ht
    rw [moveTo, atClock, dif_pos ?_, dif_pos (by omega)]
    · refine ⟨_, rfl, (leads_clock (by rfl) (by rfl) ?_ ?_).imp fun u _ hu => ?_⟩
      all_goals
        simp only [valueAt, minute, hour, minuteMicros, hourMicros, dayMicros,
          Int.toNat_natCast] at *
        omega
    · simp only [hour, hourMicros, dayMicros] at *
      omega
  case hour =>
    have hn : 0 ≤ n ∧ n ≤ 23 := hn (by simp)
    have hh := t.clock_lt
    simp only [valueAt] at ht
    rw [moveTo, atClock, dif_pos (by omega), dif_pos (by omega)]
    refine ⟨_, rfl, (leads_clock (by rfl) (by rfl) ?_ ?_).imp fun u _ hu => ?_⟩
    all_goals
      simp only [valueAt, hour, minuteMicros, hourMicros, dayMicros, Int.toNat_zero] at *
      omega
  case dayOfMonth =>
    have hy : 1 ≤ t.year ∧ t.year ≤ lastYear := ⟨t.date.year_pos, t.date.year_le⟩
    have hm : 1 ≤ t.month ∧ t.month ≤ 12 := ⟨t.date.month_pos, t.date.month_le⟩
    have hr : n ≤ t.date.daysInMonth := by simpa [reaches] using hr
    simp only [valueAt] at ht
    obtain ⟨d, hok, hdy, hdm, hdd⟩ : ∃ d : Date, Date.of t.year t.month n = .ok d ∧ _ :=
      Date.of_eq_ok (by omega) (by omega) ⟨by omega, hr⟩
    refine ⟨t.startOf d, by rw [moveTo, hok]; rfl, ?_⟩
    refine (leads_day (d := d) (by omega) (by omega) (by omega)).imp fun u _ hu => ?_
    simp only [valueAt]
    omega
  case month =>
    have hy : 1 ≤ t.year ∧ t.year ≤ lastYear := ⟨t.date.year_pos, t.date.year_le⟩
    have hn : 1 ≤ n ∧ n ≤ 12 := hn (by simp)
    simp only [valueAt] at ht
    obtain ⟨d, hok, hdy, hdm, hdd⟩ : ∃ d : Date, Date.of t.year n 1 = .ok d ∧ _ :=
      Date.of_one_eq_ok (by omega) hn
    refine ⟨t.startOf d, by rw [moveTo, hok]; rfl, ?_⟩
    refine (leads_month (d := d) (by omega) (by omega) (by omega)).imp fun u _ hu => ?_
    simp only [valueAt]
    omega
  case year =>
    have hy : 1 ≤ t.year := t.date.year_pos
    have hr : n ≤ lastYear := by simpa [reaches] using hr
    simp only [valueAt] at ht
    obtain ⟨d, hok, hdy, hdm, hdd⟩ : ∃ d : Date, Date.of n 1 1 = .ok d ∧ _ :=
      Date.of_one_eq_ok (by omega) (by omega)
    refine ⟨t.startOf d, by rw [moveTo, hok]; rfl, ?_⟩
    refine (leads_year (d := d) (by omega) (by omega) (by omega)).imp fun u _ hu => ?_
    simp only [valueAt]
    omega

-- Moving to a value does not leave the unit.
theorem of_moveTo_eq_ok (hc : c ≠ .dayOfWeek) (h : moveTo c t n = .ok u) :
    l.valueAt c u = n ∧ SameUnit c t u := by
  cases c
  case minute =>
    obtain ⟨hd, hh, hm⟩ := of_atClock_eq_ok h
    exact ⟨hm, hd.symm, (Int.ofNat_inj.mp hh).symm⟩
  case hour =>
    obtain ⟨hd, hh, -⟩ := of_atClock_eq_ok h
    exact ⟨hh, hd.symm⟩
  case dayOfMonth =>
    obtain ⟨x, hx, rfl⟩ := Except.map_eq_ok_iff.mp h
    obtain ⟨hy, hm, hd⟩ := Date.fields_of_eq_ok hx
    exact ⟨hd, (Int.ofNat_inj.mp hy).symm, (Int.ofNat_inj.mp hm).symm⟩
  case month =>
    obtain ⟨x, hx, rfl⟩ := Except.map_eq_ok_iff.mp h
    obtain ⟨hy, hm, -⟩ := Date.fields_of_eq_ok hx
    exact ⟨hm, (Int.ofNat_inj.mp hy).symm⟩
  case year =>
    obtain ⟨x, hx, rfl⟩ := Except.map_eq_ok_iff.mp h
    exact ⟨(Date.fields_of_eq_ok hx).1, trivial⟩
  case dayOfWeek => exact absurd rfl hc

end Values

section Steps

-- Whether a column admits an instant.
def Admits (l : Layout) (c : Column) (e : Expr ι) (t : Instant) : Prop :=
  e.Holds (l.domain c) (l.valueAt c t)

-- What a column makes of a cursor, unless it counts weekdays: within the current unit it moves to
-- the first instant that it admits, if there is one.
inductive Within (l : Layout) (c : Column) (e : Expr ι) (t : Instant) : Except Fault Advance → Prop
  | stay : l.Admits c e t → Within l c e t (.ok ⟨true, t⟩)
  | move {d : Instant} :
    SameUnit c t d → l.Admits c e d → Leads t (.ok d) (¬l.Admits c e ·) →
    Within l c e t (.ok ⟨true, d⟩)
  | none :
    (∀ u, t.ticks ≤ u.ticks → SameUnit c t u → ¬l.Admits c e u) → Within l c e t (.ok ⟨false, t⟩)

-- What one column makes of a cursor. It never passes over an instant that the column admits.
inductive Step (l : Layout) (c : Column) (e : Expr ι) (t : Instant) : Except Fault Advance → Prop
  | stay : l.Admits c e t → Step l c e t (.ok ⟨true, t⟩)
  | move {d : Instant} : Leads t (.ok d) (¬l.Admits c e ·) → Step l c e t (.ok ⟨true, d⟩)
  | overshoot {d : Instant} :
    c = .dayOfWeek → Leads t (.ok d) (¬l.Admits c e ·) → Step l c e t (.ok ⟨false, d⟩)
  | roll : c ≠ .dayOfWeek → c ≠ .year → Leads t (Layout.roll c t) (¬l.Admits c e ·) →
    Step l c e t (.ok ⟨false, t⟩)
  | never : c = .year → (∀ u, t.ticks ≤ u.ticks → ¬l.Admits c e u) → Step l c e t (.ok ⟨false, t⟩)
  | fault {f : Fault} :
    f ≠ .zeroStep → (∀ u, t.ticks ≤ u.ticks → ¬l.Admits c e u) → Step l c e t (.error f)

theorem admits_eq (h : e.Fits l c .root) (hd : 0 ≤ (l.domain c).lower) (t : Instant) :
    ∃ b, l.admits c e t = .ok b ∧ (b ↔ l.Admits c e t) := by
  have ⟨r, hr, ha⟩ := h.next?_answers hd (l.valueAt c t)
  refine ⟨r == l.valueAt c t, ?_, ?_⟩
  · rw [admits, nextValue, hr]
    rfl
  · rw [beq_iff_eq]
    exact ha.eq_iff

theorem advance_eq (hc : c ≠ .dayOfWeek) {r : Int}
    (hr : e.next? (l.domain c) (l.valueAt c t) = some r) :
    l.advance c e t =
      if r < l.valueAt c t || !reaches c t r then .ok ⟨false, t⟩
      else if r = l.valueAt c t then .ok ⟨true, t⟩
      else (moveTo c t r).map fun d => ⟨true, d⟩ := by
  have hn : l.nextValue c e (l.valueAt c t) = .ok r := by rw [nextValue, hr]
  cases c
  case dayOfWeek => exact absurd rfl hc
  all_goals
    simp only [advance, hn, bind, Except.bind, Except.map]

-- Whether a column of weekdays admits the day of a number, be it of the calendar or past its end.
def AdmitsDay (l : Layout) (e : Expr ι) (n : Nat) : Prop :=
  e.Holds (l.domain .dayOfWeek) ((n % 7 : Nat) + l.sunday)

theorem admits_iff_admitsDay : l.Admits .dayOfWeek e t ↔ l.AdmitsDay e t.date.ordinal := .rfl

-- An answer other than the weekday itself names the next weekday that is admitted: it lies one to
-- six days ahead.
theorem daysAhead_eq {r : Int} (hf : e.Fits l .dayOfWeek .root)
    (hd : 0 ≤ (l.domain .dayOfWeek).lower)
    (ha : e.Answers (l.domain .dayOfWeek) (l.valueAt .dayOfWeek t) r)
    (he : r ≠ l.valueAt .dayOfWeek t) :
    ∃ k : Nat, daysAhead (l.valueAt .dayOfWeek t) r = k ∧ 1 ≤ k ∧ k ≤ 6 ∧
      IsLeast {k | l.AdmitsDay e (t.date.ordinal + k)} k := by
  have hvt : l.valueAt .dayOfWeek t = (t.date.ordinal : Int) % 7 + l.sunday := by
    simp [valueAt, Date.weekday]
  have hmem {n : Int} (hn : e.Holds (l.domain .dayOfWeek) n)
      (hp : ¬e.Holds (l.domain .dayOfWeek) (n - 1)) : l.sunday ≤ n ∧ n ≤ 6 + l.sunday :=
    (hf.mem_of_edge hd hn hp).2 nofun
  rcases Int.lt_or_lt_of_ne he with hlt | hgt
  case inl =>
    have ⟨hnone, hleast, hneg⟩ := ha.of_lt hlt
    have hr := hmem hleast.1 fun h => by
      have := hleast.2 h
      omega
    have hpast := hnone _ hleast.1
    obtain ⟨k, hk⟩ := Int.eq_ofNat_of_zero_le (by omega : 0 ≤ 7 - l.valueAt .dayOfWeek t + -r)
    refine ⟨k, ?_, by omega, by omega, ?_, fun m hm => ?_⟩
    · rw [daysAhead, if_neg (by omega)]
      omega
    · show l.AdmitsDay e (t.date.ordinal + k)
      have he : (((t.date.ordinal + k) % 7 : Nat) : Int) + l.sunday = -r := by omega
      rw [AdmitsDay, he]
      exact hleast.1
    · -- The weekday is one of this week from that of `t` on, or one of the next week.
      have hn := hnone _ hm
      have hl := hleast.2 hm
      omega
  case inr =>
    have hleast := ha.of_le (Int.le_of_lt hgt)
    have hr := hmem hleast.1.1 fun h => by
      have := hleast.2 ⟨h, by omega⟩
      omega
    obtain ⟨k, hk⟩ := Int.eq_ofNat_of_zero_le (by omega : 0 ≤ r - l.valueAt .dayOfWeek t)
    refine ⟨k, by rw [daysAhead, if_pos hgt, hk], by omega, by omega, ?_, fun m hm => ?_⟩
    · show l.AdmitsDay e (t.date.ordinal + k)
      have he : (((t.date.ordinal + k) % 7 : Nat) : Int) + l.sunday = r := by omega
      rw [AdmitsDay, he]
      exact hleast.1.1
    · by_contra hlt
      have := hleast.2 ⟨hm, by omega⟩
      omega

-- The days until the weekday that an answer names are not admitted.
theorem leads_weekday {r : Int} (hf : e.Fits l .dayOfWeek .root)
    (hd : 0 ≤ (l.domain .dayOfWeek).lower)
    (ha : e.Answers (l.domain .dayOfWeek) (l.valueAt .dayOfWeek t) r)
    (he : r ≠ l.valueAt .dayOfWeek t) :
    Leads t (t.midnight.addDays (daysAhead (l.valueAt .dayOfWeek t) r))
      (¬l.Admits .dayOfWeek e ·) := by
  obtain ⟨k, hk, hpos, -, hleast⟩ := daysAhead_eq hf hd ha he
  rw [hk]
  refine (leads_addDays t hpos).imp fun u _ ⟨hle, hlt⟩ hu => ?_
  obtain ⟨m, hm⟩ := Nat.exists_eq_add_of_le hle
  rw [admits_iff_admitsDay, hm] at hu
  have := hleast.2 hu
  omega

theorem weekday_step (hf : e.Fits l .dayOfWeek .root) (hd : 0 ≤ (l.domain .dayOfWeek).lower) :
    Step l .dayOfWeek e t (l.advanceWeekday e t) := by
  have ⟨r, hr, ha⟩ := hf.next?_answers hd (l.valueAt .dayOfWeek t)
  have hn : l.nextValue .dayOfWeek e (l.valueAt .dayOfWeek t) = .ok r := by rw [nextValue, hr]
  by_cases he : r = l.valueAt .dayOfWeek t
  case pos =>
    rw [advanceWeekday, hn]
    simp only [bind, Except.bind, if_pos he]
    exact .stay <| ha.eq_iff.mp he
  case neg =>
    have hlead : Leads t (t.midnight.addDays (daysAhead (l.valueAt .dayOfWeek t) r))
        (¬l.Admits .dayOfWeek e ·) :=
      leads_weekday hf hd ha he
    rw [advanceWeekday, hn]
    simp only [bind, Except.bind, if_neg he]
    cases hm : t.midnight.addDays (daysAhead (l.valueAt .dayOfWeek t) r)
    case error f =>
      rw [hm] at hlead
      exact .fault (fun hf => hlead.fault <| hf ▸ rfl) fun u hu => hlead.between u hu trivial
    case ok d =>
      rw [hm] at hlead
      dsimp only
      cases d.year == t.year && d.month == t.month
      case true   => exact .move hlead
      case false  => exact .overshoot rfl hlead

theorem advance_within (hf : e.Fits l c .root) (hd : 0 ≤ (l.domain c).lower) (hc : c ≠ .dayOfWeek)
    (t : Instant) : Within l c e t (l.advance c e t) := by
  have ⟨r, hr, ha⟩ := hf.next?_answers hd (l.valueAt c t)
  rw [advance_eq hc hr]
  split
  case isTrue hout =>
    -- No value is left among those that the column takes before the next unit.
    refine .none fun u hu hunit h => ?_
    have hle : l.valueAt c t ≤ l.valueAt c u := hunit.valueAt_le hc hu
    rcases Int.lt_or_le r (l.valueAt c t) with hlt | hge
    · have := (ha.of_lt hlt).1 _ h
      omega
    · have hr := (ha.of_le hge).2 ⟨h, hle⟩
      rw [decide_eq_false (by omega), Bool.false_or, Bool.not_eq_true'] at hout
      have hreach := hunit.reaches_valueAt (l := l)
      cases c <;> simp_all [reaches]
      all_goals omega
  case isFalse hin =>
    rw [Bool.or_eq_true, not_or, decide_eq_true_iff, Bool.not_eq_true', Bool.not_eq_false] at hin
    have ⟨hle, hreach⟩ := hin
    have hleast := ha.of_le (Int.not_lt.mp hle)
    split
    case isTrue he => exact .stay <| ha.eq_iff.mp he
    case isFalse he =>
      have hedge : ¬e.Holds (l.domain c) (r - 1) := fun h => by
        have := hleast.2 ⟨h, by omega⟩
        omega
      have ⟨d, hok, hlead⟩ := leads_moveTo hc (by omega : l.valueAt c t < r)
        (hf.mem_of_edge hd hleast.1.1 hedge).2 hreach
      obtain ⟨hv, hunit⟩ := of_moveTo_eq_ok (l := l) hc hok
      rw [hok]
      refine .move hunit (by rw [Admits, hv]; exact hleast.1.1) <|
        hlead.imp fun u _ ⟨hle, hlt⟩ h => ?_
      exact absurd (hleast.2 ⟨h, hle⟩) (Int.not_le.mpr hlt)

theorem advance_step (hf : e.Fits l c .root) (hd : 0 ≤ (l.domain c).lower) (t : Instant) :
    Step l c e t (l.advance c e t) := by
  by_cases hc : c = .dayOfWeek
  case pos =>
    subst hc
    exact weekday_step hf hd
  case neg =>
    have hw := advance_within hf hd hc t
    generalize l.advance c e t = x at hw
    cases hw
    case stay ha    => exact .stay ha
    case move hl    => exact .move hl
    case none hn =>
      by_cases hy : c = .year
      · exact .never hy fun u hu => hn u hu <| by subst hy; trivial
      · exact .roll hc hy <| (leads_unit hc hy t).imp hn

end Steps

end Cron.Layout
