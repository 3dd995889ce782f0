import Cron.Proofs.Schedule.NextMatch
import Cron.Proofs.Search.CalendarEnd

namespace Cron

variable {ι : Type} {l : Layout} {roots : Columns (Expr ι)} {s : Schedule} {t u r c : Instant}
variable {limit : Int} {n : Nat} {o : Outcome}

namespace Layout

-- A pass from `t` that came to an end within the calendar never went back. It went on, unless it
-- exhausted the years or ended where it began.
structure Forward (t : Instant) (p : Pass) : Prop where
  le     : t.ticks ≤ p.cursor.ticks
  offset : p.cursor.offset = t.offset
  later  : p.changed → t.ticks < p.cursor.ticks
  still  : p.changed = false → p.exhausted = false → p.cursor = t

theorem Covers.forward {p : Pass} (h : l.Covers roots searchOrder false t p) : Forward t p where
  le     := h.le
  offset := h.offset
  later  := h.later
  still hc hx := (h.still hc hx).1

-- Every repeated pass begins at least a minute after the one before it.
theorem Repeats.minutes_le (hr : l.Repeats roots limit n t u) (h : l.WellFormed roots)
    (hw : t.isWholeMinute) : t.ticks + n * minuteMicros ≤ u.ticks := by
  induction hr
  case none => simp
  case more n t u p hp _ _ hch _ hi =>
    have hc := covers_of_pass h hp
    have hnext := Instant.add_minute_le hw (hc.whole hw) (hc.later hch)
    have hrest := hi (hc.whole hw)
    rw [Nat.succ_mul]
    omega

-- The calendar has room for that many passes.
theorem Repeats.minutes_lt_remaining (hr : l.Repeats roots limit n t u) (h : l.WellFormed roots)
    (hw : t.isWholeMinute) : n * minuteMicros < t.remaining := by
  have hle := hr.minutes_le h hw
  have hend := u.ticks_lt_endTicks
  rw [Instant.remaining]
  omega

-- How a search from `r` ends: before its first pass, or with a last one.
inductive Ended (l : Layout) (roots : Columns (Expr ι)) (r : Instant) : Outcome → Prop
  | offCalendar {f : Fault} : r.ceilMinute = .error f → Ended l roots r .offCalendar
  | pastLimit {c : Instant} :
    r.ceilMinute = .ok c → l.searchLimit r < c.year → Ended l roots r (.pastLimit (l.searchLimit r))
  | passes {c u : Instant} {n : Nat} {o : Outcome} :
    r.ceilMinute = .ok c → c.year ≤ l.searchLimit r → l.Repeats roots (l.searchLimit r) n c u →
    n * minuteMicros < c.remaining → l.Last roots (l.searchLimit r) (n + 1) u o →
    Ended l roots r o

theorem search_ended (h : l.WellFormed roots) (r : Instant) :
    ∃ o, l.search roots r = .ok o ∧ l.Ended roots r o := by
  rw [search]
  rcases r.ceilMinute_least with ⟨c, hc, -, hw, -, -⟩ | ⟨f, hf, -⟩
  case inl =>
    rw [hc]
    dsimp only
    split
    case isTrue hy => exact ⟨_, rfl, .pastLimit hc hy⟩
    case isFalse hy =>
      obtain ⟨n, u, o, ho, hr, hl⟩ := searchFrom_ends h (l.searchLimit r) 0 c
      rw [Nat.zero_add] at hl
      exact ⟨o, ho, .passes hc (Int.not_lt.mp hy) hr (hr.minutes_lt_remaining h hw) hl⟩
  case inr =>
    rw [hf]
    exact ⟨_, rfl, .offCalendar hf⟩

-- Passes are repeated from cursors in reach only.
theorem Repeats.year_le (hr : l.Repeats roots limit n t u) (ht : t.year ≤ limit) :
    u.year ≤ limit := by
  induction hr
  case none                    => exact ht
  case more _ _ hy _ _ hi      => exact hi hy

-- The years in reach of a search end before the last one. So no pass of it leaves the calendar, and
-- the search does so only where the reference is rounded up.
theorem search_eq_offCalendar_iff (h : l.WellFormed roots) (r : Instant) :
    l.search roots r = .ok .offCalendar ↔ Instant.endTicks < r.ticks + minuteMicros := by
  rw [← Instant.ceilMinute_eq_error_iff]
  constructor
  case mp =>
    intro hs
    obtain ⟨o, ho, hend⟩ := search_ended h r
    cases hs.symm.trans ho
    cases hend
    case offCalendar f hf => exact ⟨f, hf⟩
    case passes u _ _ hy hr _ hlast =>
      cases hlast
      case offCalendar f he _ =>
        have hlimit : l.searchLimit r ≤ lastYear - 1 := min_le_right _ _
        have hu : u.year ≤ l.searchLimit r := hr.year_le hy
        obtain ⟨p, hp⟩ := exists_pass_eq_ok (t := u) h (by omega)
        cases he.symm.trans hp
  case mpr =>
    rintro ⟨f, hf⟩
    rw [search, hf]

end Layout

namespace Schedule

-- A pass from any cursor goes forward, or it leaves the calendar, where no instant is left that the
-- schedule admits. So the search ends after finitely many of them, whatever the schedule admits.
theorem search_terminates (h : Reachable s) :
    (∀ t, (∃ p, s.layout.pass s.roots t = .ok p ∧ Layout.Forward t p) ∨
      ∃ f, s.layout.pass s.roots t = .error f ∧ f ≠ .zeroStep ∧
        ∀ u, t.ticks ≤ u.ticks → s.matches? u = .ok false) ∧
    ∀ r, ∃ o, s.search r = .ok o ∧ s.layout.Ended s.roots r o := by
  have hw := h.sound.wellFormed h.one_le_firstYear
  refine ⟨fun t => ?_, fun r => Layout.search_ended hw r⟩
  have hp := Layout.pass_passed hw t
  cases he : s.layout.pass s.roots t
  case ok p =>
    rw [he] at hp
    exact .inl ⟨p, rfl, Layout.Covers.forward hp⟩
  case error f =>
    rw [he] at hp
    exact .inr ⟨f, rfl, hp.1, fun u hu => matches?_eq_false hw <| hp.2 u hu⟩

-- No month of February has a thirtieth day.
theorem search_terminates_without_match :
    let s := ((unrestricted ⟨.quartz, 2024, 100, 900⟩).after (.add 3 "30")).after (.add 4 "FEB")
    (∀ t, (∃ p, s.layout.pass s.roots t = .ok p ∧ Layout.Forward t p) ∨
      ∃ f, s.layout.pass s.roots t = .error f ∧ f ≠ .zeroStep ∧
        ∀ u, t.ticks ≤ u.ticks → s.matches? u = .ok false) ∧
    ∀ r, ∃ o, s.search r = .ok o ∧ s.layout.Ended s.roots r o := by
  intro s
  have h := Reachable.unrestricted (l := ⟨.quartz, 2024, 100, 900⟩) (by decide)
  exact search_terminates <| (h.edited (.add 3 "30")).edited (.add 4 "FEB")

-- Moving a cursor fails only where it aims past the end of the calendar: no column but that of
-- weekdays does so within its unit, and no day, month or time of day is set that does not exist.
-- Before the last year no pass fails at all, so that a search leaves the calendar only from within
-- its last minute.
theorem calendar_left_only_at_end (h : Reachable s) :
    (∀ c, c ≠ .dayOfWeek → ∀ t, ∃ a, s.layout.advance c (s.root c) t = .ok a) ∧
    (∀ t : Instant, ∃ k ≤ 6,
      IsLeast {k | s.layout.AdmitsDay (s.root .dayOfWeek) (t.date.ordinal + k)} k ∧
      (k = 0 → s.layout.advance .dayOfWeek (s.root .dayOfWeek) t = .ok ⟨true, t⟩) ∧
      (0 < k → t.Aimed (dayMicros * (t.date.ordinal + k))
        ((s.layout.advance .dayOfWeek (s.root .dayOfWeek) t).map Advance.cursor))) ∧
    (∀ c (t : Instant), t.Aimed (Layout.nextUnit c t) (Layout.roll c t)) ∧
    (∀ t f, s.layout.pass s.roots t = .error f → f.PastEnd ∧ t.year = lastYear) ∧
    ∀ r : Instant, s.search r = .ok .offCalendar ↔ Instant.endTicks < r.ticks + minuteMicros := by
  have hw := h.sound.wellFormed h.one_le_firstYear
  refine ⟨fun c hc t => Layout.advance_eq_ok (hw.fits c) (hw.lower c) hc t,
    fun t => Layout.weekday_aimed (hw.fits .dayOfWeek) (hw.lower .dayOfWeek) t, Layout.roll_aimed,
    fun t f he => ⟨Layout.pastEnd_of_passOver hw he, ?_⟩, Layout.search_eq_offCalendar_iff hw⟩
  have hle : t.year ≤ lastYear := t.date.year_le
  by_contra hne
  obtain ⟨p, hp⟩ := Layout.exists_pass_eq_ok hw (Nat.lt_of_le_of_ne hle hne)
  cases he.symm.trans hp

-- A day that no February has makes no search leave the calendar before its last minute.
theorem calendar_left_only_at_end_without_match :
    let s := ((unrestricted ⟨.quartz, 2024, 100, 900⟩).after (.add 3 "31")).after (.add 4 "FEB")
    let d : Date := ⟨9999, 12, 31, by decide, by decide, by decide, by decide, by decide, by decide⟩
    let t : Instant := ⟨d, dayMicros - minuteMicros, none, by decide⟩
    let u : Instant := ⟨d, dayMicros - minuteMicros + 1, none, by decide⟩
    (∀ t : Instant, t.year < lastYear → ∀ f, s.layout.pass s.roots t ≠ .error f) ∧
      s.search t ≠ .ok .offCalendar ∧ s.search u = .ok .offCalendar := by
  intro s d t u
  have h := Reachable.unrestricted (l := ⟨.quartz, 2024, 100, 900⟩) (by decide)
  obtain ⟨-, -, -, hpass, hsearch⟩ :=
    calendar_left_only_at_end <| (h.edited (.add 3 "31")).edited (.add 4 "FEB")
  refine ⟨fun t ht f he => ?_, (hsearch t).not.mpr (by decide), (hsearch u).mpr (by decide)⟩
  exact absurd (hpass t f he).2 <| Nat.ne_of_lt ht

end Schedule

end Cron
