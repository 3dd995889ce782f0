import Cron.Proofs.Expr.Bounds
import Cron.Proofs.Search.First

-- The end of the calendar. Moving a cursor fails only where the instant that is aimed at, counted
-- on past the last day, lies behind that day, and never because a month, a day or a time of day
-- does not exist. A pass that begins before the last year aims at nothing there: it may enter the
-- last year, but only at the beginning of a unit, and there is always something left in that unit.

namespace Cron

variable {ι : Type}

-- What is said of an aim past the end of the calendar.
inductive Fault.PastEnd : Fault → Prop
  | day            : PastEnd .pastCalendar
  | year {y : Int} : lastYear < y → PastEnd (.yearOutOfRange y)

namespace Instant

variable {t d : Instant} {n : Nat} {x : Except Fault Instant} {f : Fault}

section Aims

-- What comes of aiming at an instant by its number of ticks, counted on past the last day.
inductive Aimed (t : Instant) (n : Nat) : Except Fault Instant → Prop
  | hit {d : Instant} : d.ticks = n → d.offset = t.offset → Aimed t n (.ok d)
  | past {f : Fault}  : endTicks ≤ n → f.PastEnd → Aimed t n (.error f)

theorem Aimed.exists_eq_ok (h : t.Aimed n x) (hn : n < endTicks) : ∃ d, x = .ok d := by
  cases h
  case hit         => exact ⟨_, rfl⟩
  case past hle _  => exact absurd hn <| Nat.not_lt.mpr hle

theorem Aimed.pastEnd (h : t.Aimed n (.error f)) : f.PastEnd := by
  cases h
  assumption

theorem Aimed.error_iff (h : t.Aimed n x) : (∃ f, x = .error f) ↔ endTicks ≤ n := by
  cases h
  case hit d hd _ =>
    have := d.ticks_lt_endTicks
    exact iff_of_false nofun (by omega)
  case past hle _ => exact iff_of_true ⟨_, rfl⟩ hle

theorem aimed_ofTicks (hn : dayMicros ≤ n) : t.Aimed n (t.ofTicks n) := by
  rcases Nat.lt_or_ge n endTicks with hlt | hge
  · obtain ⟨d, hd, ht, ho⟩ := ofTicks_eq_ok (t := t) (n := n) (by omega)
    rw [hd]
    exact .hit (by omega) ho
  · rw [ofTicks_eq_error (by omega)]
    exact .past hge .day

-- The first day of a month, be it of a year that the calendar does not have.
theorem aimed_firstDay (year month : Nat) (hy : 1 ≤ year) (hm : 1 ≤ month ∧ month ≤ 12) :
    t.Aimed (dayMicros * (Date.daysBeforeYear year + Date.daysThroughMonth year (month - 1) + 1))
      ((Date.of year month 1).map t.startOf) := by
  rcases Nat.lt_or_ge lastYear year with hlt | hle
  · rw [Date.of_eq_error (by omega)]
    have hend : Date.daysBeforeYear (lastYear + 1) = Date.lastOrdinal := rfl
    have hle : Date.daysBeforeYear (lastYear + 1) ≤ Date.daysBeforeYear year :=
      Date.daysBeforeYear_mono hlt
    refine .past (Nat.mul_le_mul_left _ ?_) (.year (by omega))
    omega
  · obtain ⟨d, hd, hdy, hdm, hdd⟩ : ∃ d : Date, Date.of year month 1 = .ok d ∧ _ :=
      Date.of_one_eq_ok (by omega) (by omega)
    rw [hd]
    refine .hit ?_ rfl
    rw [ticks_startOf, Date.ordinal, Int.ofNat_inj.mp hdy, Int.ofNat_inj.mp hdm,
      show d.day = 1 by omega]

-- Within the last minute there is no whole minute to round up to.
theorem ceilMinute_eq_error_iff :
    (∃ f, t.ceilMinute = .error f) ↔ endTicks < t.ticks + minuteMicros := by
  have hend := t.ticks_lt_endTicks
  by_cases hw : t.isWholeMinute
  case pos =>
    refine iff_of_false (by simp [ceilMinute, hw]) ?_
    rw [isWholeMinute_iff_ticks] at hw
    simp only [endTicks, dayMicros, minuteMicros, Date.lastOrdinal] at *
    omega
  case neg =>
    have hday := t.dayMicros_le_ticks
    rw [ceilMinute_of_not_whole hw, (aimed_ofTicks ?_).error_iff]
    all_goals
      rw [isWholeMinute_iff] at hw
      simp only [ticks, endTicks, dayMicros, minuteMicros, Date.lastOrdinal] at *
      omega

end Aims

-- The last instant of the calendar, but for its offset.
def final : Instant where
  date     := ⟨lastYear, 12, 31, by decide, by decide, by decide, by decide, by decide, by decide⟩
  clock    := dayMicros - 1
  offset   := none
  clock_lt := by decide

theorem ticks_le_final (t : Instant) : t.ticks ≤ final.ticks :=
  Nat.le_of_lt_succ t.ticks_lt_endTicks

end Instant

namespace Layout

open Instant

variable {l : Layout} {c c' : Column} {e : Expr ι} {roots : Columns (Expr ι)} {cs : List Column}
variable {t u d : Instant} {a : Advance} {n : Int} {changed : Bool} {f : Fault}

section Aims

-- Where the next unit begins, counted on past the end of the calendar.
def nextUnit : Column → Instant → Nat
  | .minute, t                      => t.ticks - t.clock % hourMicros + hourMicros
  | .hour, t                        => dayMicros * (t.date.ordinal + 1)
  | .dayOfMonth, t                  =>
    dayMicros * (Date.daysBeforeYear t.year + Date.daysThroughMonth t.year t.month + 1)
  | .month, t                       => dayMicros * (Date.daysBeforeYear (t.year + 1) + 1)
  | .dayOfWeek, t | .year, t        => t.ticks

theorem roll_aimed (c : Column) (t : Instant) : t.Aimed (nextUnit c t) (roll c t) := by
  have hd := t.dayMicros_le_ticks
  have hyear : t.Aimed (nextUnit .month t) (roll .month t) :=
    aimed_firstDay (t.year + 1) 1 (by omega) (by omega)
  cases c
  case minute =>
    rw [roll_minute]
    refine aimed_ofTicks ?_
    have : t.clock % hourMicros ≤ t.clock := Nat.mod_le _ _
    simp only [nextUnit, ticks, dayMicros, hourMicros] at *
    omega
  case hour =>
    have hadd := midnight_addDays t 1
    rw [roll, show (1 : Int) = (1 : Nat) from rfl, hadd]
    exact aimed_ofTicks <| Nat.le_mul_of_pos_right _ (Nat.succ_pos _)
  case dayOfMonth =>
    rw [roll]
    split
    case isTrue hm =>
      have hy : Date.daysBeforeYear (t.year + 1) =
          Date.daysBeforeYear t.year + Date.daysThroughMonth t.year 12 :=
        Date.daysBeforeYear_succ t.date.year_pos
      rw [nextUnit, hm, ← hy]
      exact hyear
    case isFalse hm =>
      have hle : t.month ≤ 12 := t.date.month_le
      exact aimed_firstDay t.year (t.month + 1) t.date.year_pos (by omega)
  case month      => exact hyear
  case dayOfWeek  => exact .hit rfl rfl
  case year       => exact .hit rfl rfl

theorem ticks_lt_of_ordinal_le {k : Nat} (h : u.date.ordinal ≤ k) :
    u.ticks < dayMicros * (k + 1) := by
  have := u.clock_lt
  simp only [ticks, dayMicros] at *
  omega

-- All instants of a unit come before the next one.
theorem SameUnit.ticks_lt_nextUnit (h : SameUnit c t u) (hc : c ≠ .dayOfWeek) (hy : c ≠ .year) :
    u.ticks < nextUnit c t := by
  cases c
  case minute =>
    obtain ⟨hd, hh⟩ := h
    simp only [nextUnit, hour, ticks, hd, hourMicros] at *
    omega
  case hour =>
    have hd : t.date = u.date := h
    exact ticks_lt_of_ordinal_le <| hd ▸ Nat.le_refl _
  case dayOfMonth =>
    obtain ⟨hy, hm⟩ := h
    have hday := u.date.day_le
    have hmonth := Date.daysThroughMonth_pred (y := u.date.year) u.date.month_pos
    rw [nextUnit, hy, hm]
    refine ticks_lt_of_ordinal_le ?_
    simp only [Date.ordinal, year, month] at *
    omega
  case month =>
    have hy : t.year = u.year := h
    exact ticks_lt_of_ordinal_le <| hy ▸ u.date.ordinal_le_daysBeforeYear_succ
  case dayOfWeek  => exact absurd rfl hc
  case year       => exact absurd rfl hy

-- All columns but that of weekdays stay within the calendar.
theorem advance_eq_ok (hf : e.Fits l c .root) (hd : 0 ≤ (l.domain c).lower) (hc : c ≠ .dayOfWeek)
    (t : Instant) : ∃ a, l.advance c e t = .ok a := by
  have hw := advance_within hf hd hc t
  generalize l.advance c e t = x at hw
  cases hw <;> exact ⟨_, rfl⟩

-- A column of weekdays aims at the next day that it admits, which is at most six days ahead.
theorem weekday_aimed (hf : e.Fits l .dayOfWeek .root) (hd : 0 ≤ (l.domain .dayOfWeek).lower)
    (t : Instant) :
    ∃ k : Nat, k ≤ 6 ∧ IsLeast {k | l.AdmitsDay e (t.date.ordinal + k)} k ∧
      (k = 0 → l.advance .dayOfWeek e t = .ok ⟨true, t⟩) ∧
      (0 < k → t.Aimed (dayMicros * (t.date.ordinal + k))
        ((l.advance .dayOfWeek e t).map Advance.cursor)) := by
  obtain ⟨r, hr, ha⟩ := hf.next?_answers hd (l.valueAt .dayOfWeek t)
  have hn : l.nextValue .dayOfWeek e (l.valueAt .dayOfWeek t) = .ok r := by rw [nextValue, hr]
  rw [advance, advanceWeekday, hn, Except.ok_bind]
  by_cases he : r = l.valueAt .dayOfWeek t
  case pos =>
    rw [if_pos he]
    exact ⟨0, by omega, ⟨ha.eq_iff.mp he, fun _ _ => Nat.zero_le _⟩, fun _ => rfl, by simp⟩
  case neg =>
    obtain ⟨k, hk, hpos, hle, hleast⟩ := daysAhead_eq hf hd ha he
    have haim : t.Aimed (dayMicros * (t.date.ordinal + k)) (t.midnight.addDays k) := by
      rw [midnight_addDays]
      exact aimed_ofTicks <| Nat.le_mul_of_pos_right _ (by omega)
    rw [if_neg he, hk]
    refine ⟨k, hle, hleast, by omega, fun _ => ?_⟩
    cases hx : t.midnight.addDays k <;> rwa [hx] at haim

theorem pastEnd_of_advance (h : l.WellFormed roots)
    (he : l.advance c (roots.get c) t = .error f) : f.PastEnd := by
  by_cases hc : c = .dayOfWeek
  case pos =>
    subst hc
    obtain ⟨k, -, -, hzero, hpos⟩ := weekday_aimed (h.fits .dayOfWeek) (h.lower .dayOfWeek) t
    rcases Nat.eq_zero_or_pos k with hk | hk
    · cases he.symm.trans (hzero hk)
    · have haim := hpos hk
      rw [he] at haim
      exact haim.pastEnd
  case neg =>
    obtain ⟨a, ha⟩ := advance_eq_ok (h.fits c) (h.lower c) hc t
    cases he.symm.trans ha

theorem pastEnd_of_roll (he : roll c t = .error f) : f.PastEnd :=
  (he ▸ roll_aimed c t).pastEnd

-- Whatever a pass fails with, it was aiming past the end of the calendar.
theorem pastEnd_of_passOver (h : l.WellFormed roots)
    (he : l.passOver roots cs changed t = .error f) : f.PastEnd := by
  induction cs generalizing t changed
  case nil => cases he
  case cons c cs hi =>
    rcases Except.bind_eq_error_iff.mp he with ha | ⟨a, -, he⟩
    · exact pastEnd_of_advance h ha
    · split at he
      case isTrue => exact hi he
      case isFalse =>
        cases c
        case dayOfWeek => cases he
        case year      => cases he
        all_goals exact pastEnd_of_roll <| Except.map_eq_error_iff.mp he

end Aims

section LastYear

-- The column that counts the next finer unit.
inductive Finer : Column → Column → Prop
  | month      : Finer .year .month
  | dayOfMonth : Finer .month .dayOfMonth
  | hour       : Finer .dayOfMonth .hour
  | minute     : Finer .hour .minute

-- Whether a cursor that has come to the last unit of the calendar stands at its beginning.
def Fresh (l : Layout) (c : Column) (t : Instant) : Prop :=
  SameUnit c t final → l.valueAt c t = (l.domain c).lower

theorem fresh_month_iff : l.Fresh .month t ↔ (t.year = lastYear → t.month = 1) :=
  imp_congr_right fun _ => Int.ofNat_inj

-- Moving to a value begins the finer units anew.
theorem fresh_of_moveTo (hc : Finer c c') (h : moveTo c t n = .ok d) : l.Fresh c' d := by
  refine fun _ => ?_
  cases hc
  case month =>
    obtain ⟨x, hx, rfl⟩ := Except.map_eq_ok_iff.mp h
    exact (Date.fields_of_eq_ok hx).2.1
  case dayOfMonth =>
    obtain ⟨x, hx, rfl⟩ := Except.map_eq_ok_iff.mp h
    exact (Date.fields_of_eq_ok hx).2.2
  case hour =>
    obtain ⟨x, -, rfl⟩ := Except.map_eq_ok_iff.mp h
    simp [valueAt, startOf, Instant.hour, Layout.domain]
  case minute => exact (of_atClock_eq_ok h).2.2

theorem Finer.ne (hc : Finer c c') : c ≠ .dayOfWeek ∧ c' ≠ .dayOfWeek ∧ c' ≠ .year := by
  cases hc <;> simp

-- A cursor in the last of the finer units is not at the beginning of the coarser one.
theorem Fresh.finer (ht : l.Fresh c t) (hc : Finer c c') (hy : c ≠ .year) : l.Fresh c' t := by
  refine fun hu => absurd ht fun ht => ?_
  cases hc
  case month => exact absurd rfl hy
  case dayOfMonth =>
    have hfirst : (t.month : Int) = 1 := ht hu.1
    have hlast : t.month = 12 := hu.2
    omega
  case hour =>
    have hfirst : (t.day : Int) = 1 := ht ⟨congrArg Date.year hu, congrArg Date.month hu⟩
    have hlast : t.day = 31 := congrArg Date.day hu
    omega
  case minute =>
    have hfirst : (t.hour : Int) = 0 := ht hu.1
    have hlast : t.hour = 23 := hu.2
    omega

-- What a column does to a cursor leaves the finer units as they are or begins them anew.
theorem fresh_of_advance (hf : e.Fits l c .root) (hd : 0 ≤ (l.domain c).lower) (hc : Finer c c')
    (ht : l.Fresh c' t) (ha : l.advance c e t = .ok a) : l.Fresh c' a.cursor := by
  obtain ⟨r, hr, -⟩ := hf.next?_answers hd (l.valueAt c t)
  rw [advance_eq hc.ne.1 hr] at ha
  split at ha
  case isTrue =>
    cases ha
    exact ht
  case isFalse =>
    split at ha
    case isTrue =>
      cases ha
      exact ht
    case isFalse =>
      obtain ⟨d, hd, rfl⟩ := Except.map_eq_ok_iff.mp ha
      exact fresh_of_moveTo hc hd

-- The last unit has all values of the column.
theorem reaches_of_mem (ht : SameUnit c t final) (hy : c ≠ .year) (hn : n ∈ l.domain c) :
    reaches c t n := by
  have hend := ht.reaches_valueAt (l := l)
  cases c
  case dayOfMonth =>
    have hn : n ≤ 31 := hn.2
    simp only [reaches, decide_eq_true_eq] at *
    exact hn.trans hend
  case year => exact absurd rfl hy
  all_goals exact hend

-- From the beginning of the last unit on, there is a value that the column admits.
theorem Fresh.exists_roll_eq_ok (ht : l.Fresh c t) (hf : e.Fits l c .root)
    (hd : 0 ≤ (l.domain c).lower) (hc : c ≠ .dayOfWeek) (hy : c ≠ .year)
    (ha : l.advance c e t = .ok a) (hno : a.ok = false) : ∃ d, roll c t = .ok d := by
  have hw := advance_within hf hd hc t
  rw [ha] at hw
  cases hw
  case stay => cases hno
  case move => cases hno
  case none hnone =>
    cases hr : roll c t
    case ok d => exact ⟨d, rfl⟩
    case error f =>
      have hlast : SameUnit c t final :=
        (leads_unit hc hy t).between final t.ticks_le_final <| hr ▸ trivial
      obtain ⟨n, hb⟩ := hf.bounded hy
      obtain ⟨hmem, hn⟩ := hb.greatest.1
      have hle : l.valueAt c t ≤ n := ht hlast ▸ hmem.1
      rcases Int.lt_or_eq_of_le hle with hlt | heq
      case inl =>
        obtain ⟨d, hok, hl⟩ := leads_moveTo hc hlt (fun _ => hmem) <| reaches_of_mem hlast hy hmem
        obtain ⟨hv, hunit⟩ := of_moveTo_eq_ok (l := l) hc hok
        refine absurd ?_ <| hnone d (Nat.le_of_lt (hl.later d rfl).1) hunit
        rw [Admits, hv]
        exact hn
      case inr =>
        refine absurd ?_ <| hnone t (Nat.le_refl _) <| .refl c t
        rw [Admits, heq]
        exact hn

-- In the first month of the last year there is room for a week.
theorem Fresh.ordinal_add_six_le (ht : l.Fresh .month t) :
    t.date.ordinal + 6 ≤ Date.lastOrdinal := by
  have hlast : Date.daysBeforeYear lastYear + 365 = Date.lastOrdinal := rfl
  rcases Nat.lt_or_eq_of_le t.date.year_le with hlt | heq
  case inl =>
    have hle := t.date.ordinal_le_daysBeforeYear_succ
    have hmono : Date.daysBeforeYear (t.date.year + 1) ≤ Date.daysBeforeYear lastYear :=
      Date.daysBeforeYear_mono hlt
    omega
  case inr =>
    have hm : t.date.month = 1 := fresh_month_iff.mp ht heq
    have hday := t.date.day_le.trans <| Date.monthLength_le _ _
    rw [Date.ordinal, heq, show t.date.month - 1 = 0 by omega, Date.daysThroughMonth]
    omega

-- Where a column of weekdays admits a cursor, the month is still the same.
theorem sameMonth_of_advance (ha : l.advance .dayOfWeek e t = .ok a) (hok : a.ok) :
    a.cursor.year = t.year ∧ a.cursor.month = t.month := by
  obtain ⟨r, -, ha⟩ := Except.bind_eq_ok_iff.mp ha
  split at ha
  case isTrue =>
    cases ha
    exact ⟨rfl, rfl⟩
  case isFalse =>
    obtain ⟨d, -, ha⟩ := Except.bind_eq_ok_iff.mp ha
    cases ha
    simpa using hok

-- Weekdays lead on within the month, or out of it, and the pass ends.
theorem Fresh.advance_weekday (ht : l.Fresh .month t) (hf : e.Fits l .dayOfWeek .root)
    (hd : 0 ≤ (l.domain .dayOfWeek).lower) :
    ∃ a, l.advance .dayOfWeek e t = .ok a ∧ (a.ok → l.Fresh .month a.cursor) := by
  obtain ⟨k, hk, -, hzero, hpos⟩ := weekday_aimed hf hd t
  rcases Nat.eq_zero_or_pos k with hk | hk
  case inl => exact ⟨_, hzero hk, fun _ => ht⟩
  case inr =>
    have hroom := ht.ordinal_add_six_le
    obtain ⟨d, hd⟩ := (hpos hk).exists_eq_ok <| Nat.mul_lt_mul_of_pos_left (by omega) (by decide)
    obtain ⟨a, ha, -⟩ := Except.map_eq_ok_iff.mp hd
    refine ⟨a, ha, fun hok => ?_⟩
    obtain ⟨hy, hm⟩ := sameMonth_of_advance ha hok
    rwa [fresh_month_iff, hy, hm, ← fresh_month_iff (l := l)]

-- A pass comes to an end if each column leaves something for the next one or can begin a new unit.
theorem exists_passOver_cons_eq_ok (ha : l.advance c (roots.get c) t = .ok a)
    (hrest : a.ok → ∀ b, ∃ p, l.passOver roots cs b a.cursor = .ok p)
    (hroll : a.ok = false → c ≠ .dayOfWeek → c ≠ .year → ∃ d, roll c t = .ok d) :
    ∃ p, l.passOver roots (c :: cs) changed t = .ok p := by
  rw [passOver, ha, Except.ok_bind]
  split
  case isTrue hok => exact hrest hok _
  case isFalse hno =>
    have hroll := hroll <| Bool.not_eq_true _ ▸ hno
    cases c
    case dayOfWeek => exact ⟨_, rfl⟩
    case year      => exact ⟨_, rfl⟩
    all_goals
      obtain ⟨d, hr⟩ := hroll (by simp) (by simp)
      exact ⟨_, Except.map_eq_ok_iff.mpr ⟨d, hr, rfl⟩⟩

-- By induction on the columns, each of which counts the next finer unit.
theorem Fresh.exists_passOver_eq_ok (h : l.WellFormed roots) (hcs : (c :: cs).IsChain Finer)
    (hc : c ≠ .dayOfWeek) (hy : c ≠ .year) (ht : l.Fresh c t) :
    ∃ p, l.passOver roots (c :: cs) changed t = .ok p := by
  induction cs generalizing c t changed
  all_goals
    obtain ⟨a, ha⟩ := advance_eq_ok (h.fits c) (h.lower c) hc t
    refine exists_passOver_cons_eq_ok ha (fun hok b => ?_) fun hno _ _ =>
      ht.exists_roll_eq_ok (h.fits c) (h.lower c) hc hy ha hno
  case nil => exact ⟨_, rfl⟩
  case cons c' cs hi =>
    obtain ⟨hfiner, hcs⟩ := List.isChain_cons_cons.mp hcs
    refine hi hcs hfiner.ne.2.1 hfiner.ne.2.2 ?_
    exact fresh_of_advance (h.fits c) (h.lower c) hfiner (ht.finer hfiner hy) ha

-- A pass that begins before the last year does not leave the calendar.
theorem exists_pass_eq_ok (h : l.WellFormed roots) (ht : t.year < lastYear) :
    ∃ p, l.pass roots t = .ok p := by
  obtain ⟨a, ha⟩ := advance_eq_ok (h.fits .year) (h.lower .year) (by simp) t
  refine exists_passOver_cons_eq_ok ha (fun _ _ => ?_) fun _ _ hy => absurd rfl hy
  have hfresh : l.Fresh .month t := fresh_month_iff.mpr fun hy => absurd hy <| Nat.ne_of_lt ht
  have hyear : l.Fresh .month a.cursor :=
    fresh_of_advance (h.fits .year) (h.lower .year) .month hfresh ha
  obtain ⟨a', ha', hweekday⟩ := hyear.advance_weekday (h.fits .dayOfWeek) (h.lower .dayOfWeek)
  refine exists_passOver_cons_eq_ok ha' (fun hok _ => ?_) fun _ hc => absurd rfl hc
  have hchain : [Column.month, .dayOfMonth, .hour, .minute].IsChain Finer := by
    simp [Finer.dayOfMonth, Finer.hour, Finer.minute]
  exact (hweekday hok).exists_passOver_eq_ok h hchain (by simp) (by simp)

end LastYear

end Layout

end Cron
