import Cron.Proofs.Expr.Stepping
import Cron.Proofs.Schedule.NextMatch
import Cron.Proofs.Search.CalendarEnd

-- What a single column makes of a cursor: it moves on to the first instant of the current unit that
-- it admits, or tells that there is none, whereupon the next unit is begun at its first instant.

namespace Cron

open Schedule

variable {ι : Type} {l : Layout} {c : Column} {e : Expr ι} {s : Schedule} {t u d : Instant}

namespace Layout

open Instant

section Units

theorem ticks_lt_of_roll (hc : c ≠ .dayOfWeek) (hy : c ≠ .year) (h : roll c t = .ok d)
    (hu : SameUnit c t u) : u.ticks < d.ticks := by
  have haim := roll_aimed c t
  rw [h] at haim
  cases haim
  case hit hd _ =>
    rw [hd]
    exact hu.ticks_lt_nextUnit hc hy

-- What lies before the next unit, from an instant on, is the rest of its unit.
theorem precedes_roll_iff (hc : c ≠ .dayOfWeek) (hy : c ≠ .year) (hu : t.ticks ≤ u.ticks) :
    u.Precedes (roll c t) ↔ SameUnit c t u where
  mp h  := (leads_unit hc hy t).between u hu h
  mpr h := by
    cases hr : roll c t
    case ok d     => exact ticks_lt_of_roll hc hy hr h
    case error f  => trivial

-- Beginning the next unit leads to its first instant, or fails because the calendar has none.
inductive Rolls (c : Column) (t : Instant) : Except Fault Instant → Prop
  | next {d : Instant} :
    d.offset = t.offset →
    (∀ u : Instant, t.ticks ≤ u.ticks → (u.ticks < d.ticks ↔ SameUnit c t u)) →
    Rolls c t (.ok d)
  | last {f : Fault} : (∀ u : Instant, t.ticks ≤ u.ticks → SameUnit c t u) → Rolls c t (.error f)

theorem rolls_roll (hc : c ≠ .dayOfWeek) (hy : c ≠ .year) (t : Instant) :
    Rolls c t (roll c t) := by
  have hp (u : Instant) (hu : t.ticks ≤ u.ticks) : u.Precedes (roll c t) ↔ SameUnit c t u :=
    precedes_roll_iff hc hy hu
  have hl := leads_unit hc hy t
  generalize roll c t = x at hp hl
  cases x
  case ok d     => exact .next (hl.later d rfl).2.2 hp
  case error f  => exact .last fun u hu => (hp u hu).mp trivial

end Units

section Steps

theorem admits_eq_true_iff (hf : e.Fits l c .root) (hd : 0 ≤ (l.domain c).lower) :
    l.admits c e t = .ok true ↔ l.Admits c e t := by
  obtain ⟨b, hb, ha⟩ := admits_eq hf hd t
  rw [hb, Except.ok.injEq, ha]

theorem admits_eq_false_iff (hf : e.Fits l c .root) (hd : 0 ≤ (l.domain c).lower) :
    l.admits c e t = .ok false ↔ ¬l.Admits c e t := by
  obtain ⟨b, hb, ha⟩ := admits_eq hf hd t
  rw [hb, Except.ok.injEq, ← ha, Bool.not_eq_true]

-- A column finds the first instant of the current unit, from the cursor on, that it admits, or it
-- leaves the cursor where it is because there is none.
structure FirstInUnit (l : Layout) (c : Column) (e : Expr ι) (t : Instant) (a : Advance) :
    Prop where
  stay  : l.admits c e t = .ok true → a = ⟨true, t⟩
  found : a.ok → t.ticks ≤ a.cursor.ticks ∧ a.cursor.offset = t.offset ∧
    SameUnit c t a.cursor ∧ l.admits c e a.cursor = .ok true
  least : a.ok → ∀ u : Instant, t.ticks ≤ u.ticks → u.ticks < a.cursor.ticks →
    l.admits c e u = .ok false
  none  : a.ok = false → a.cursor = t ∧
    ∀ u : Instant, t.ticks ≤ u.ticks → SameUnit c t u → l.admits c e u = .ok false

theorem advance_first (hf : e.Fits l c .root) (hd : 0 ≤ (l.domain c).lower) (hc : c ≠ .dayOfWeek)
    (t : Instant) : ∃ a, l.advance c e t = .ok a ∧ FirstInUnit l c e t a := by
  have hw := advance_within hf hd hc t
  generalize l.advance c e t = x at hw
  have hyes {u : Instant} : l.admits c e u = .ok true ↔ l.Admits c e u := admits_eq_true_iff hf hd
  have hno {u : Instant} : l.admits c e u = .ok false ↔ ¬l.Admits c e u := admits_eq_false_iff hf hd
  cases hw
  case stay ha =>
    refine ⟨_, rfl, fun _ => rfl, fun _ => ?_, fun _ u hu hlt => ?_, nofun⟩
    · exact ⟨Nat.le_refl _, rfl, .refl c t, hyes.mpr ha⟩
    · exact absurd hu (Nat.not_le.mpr hlt)
  case move d hunit ha hl =>
    obtain ⟨hlt, -, ho⟩ := hl.later d rfl
    refine ⟨_, rfl, fun h => ?_, fun _ => ?_, fun _ u hu hlt => ?_, nofun⟩
    · exact absurd (hyes.mp h) (hl.between t (Nat.le_refl _) hlt)
    · exact ⟨Nat.le_of_lt hlt, ho, hunit, hyes.mpr ha⟩
    · exact hno.mpr <| hl.between u hu hlt
  case none hn =>
    refine ⟨_, rfl, fun h => ?_, nofun, nofun, fun _ => ⟨rfl, fun u hu hs => ?_⟩⟩
    · exact absurd (hyes.mp h) (hn t (Nat.le_refl _) <| .refl c t)
    · exact hno.mpr <| hn u hu hs

-- Every year of the calendar from that of an instant on has an instant that is not earlier.
theorem exists_in_year (t : Instant) {y : Int} (hy : t.year ≤ y) (hl : y ≤ lastYear) :
    ∃ u : Instant, t.ticks ≤ u.ticks ∧ (u.year : Int) = y := by
  rcases Int.lt_or_eq_of_le hy with hlt | rfl
  case inl =>
    obtain ⟨d, -, hdy, -, -⟩ : ∃ d : Date, Date.of y 1 1 = .ok d ∧ _ :=
      Date.of_one_eq_ok (by omega) (by omega)
    refine ⟨t.startOf d, Nat.le_of_lt ?_, hdy⟩
    exact ticks_lt_startOf_iff.mpr <| Date.ordinal_lt_of_year_lt <| by
      simp only [year] at hlt
      omega
  case inr => exact ⟨t, Nat.le_refl _, rfl⟩

-- Midnight of the first day after that of a cursor that a column of weekdays admits, and whether
-- the month is still the same.
structure FirstDay (l : Layout) (e : Expr ι) (t : Instant) (a : Advance) : Prop where
  midnight  : a.cursor.clock = 0
  offset    : a.cursor.offset = t.offset
  ahead     : t.date.ordinal + 1 ≤ a.cursor.date.ordinal ∧
    a.cursor.date.ordinal ≤ t.date.ordinal + 6
  admitted  : l.admits .dayOfWeek e a.cursor = .ok true
  first     : ∀ u : Instant, t.date.ordinal < u.date.ordinal →
    u.date.ordinal < a.cursor.date.ordinal → l.admits .dayOfWeek e u = .ok false
  ok_iff    : a.ok ↔ a.cursor.year = t.year ∧ a.cursor.month = t.month

-- Where there is room for six days, there is room for fewer.
theorem midnight_addDays_eq {k : Nat} (hk : k ≤ 6) (h : t.addDays 6 = .ok u) :
    ∃ d, t.midnight.addDays k = .ok d ∧ d.clock = 0 ∧ d.offset = t.offset ∧
      d.date.ordinal = t.date.ordinal + k := by
  obtain ⟨hu, -⟩ := of_ofTicks_eq_ok h
  have hend := u.ticks_lt_endTicks
  have hbegin := t.date.ordinal_pos
  have hn : (dayMicros : Int) ≤ (dayMicros * (t.date.ordinal + k) : Nat) ∧
      ((dayMicros * (t.date.ordinal + k) : Nat) : Int) < endTicks := by
    simp only [ticks, dayMicros] at *
    omega
  obtain ⟨d, hd, hdt, ho⟩ := ofTicks_eq_ok (t := t) hn
  have hdc := d.clock_lt
  refine ⟨d, by rw [midnight_addDays, hd], ?_, ho, ?_⟩
  all_goals
    simp only [ticks, dayMicros] at *
    omega

theorem advance_firstDay (hf : e.Fits l .dayOfWeek .root) (hd : 0 ≤ (l.domain .dayOfWeek).lower)
    (hr : t.addDays 6 = .ok u) :
    (l.admits .dayOfWeek e t = .ok true ∧ l.advance .dayOfWeek e t = .ok ⟨true, t⟩) ∨
    l.admits .dayOfWeek e t = .ok false ∧
      ∃ a, l.advance .dayOfWeek e t = .ok a ∧ FirstDay l e t a := by
  have ⟨r, hr', ha⟩ := hf.next?_answers hd (l.valueAt .dayOfWeek t)
  have hn : l.nextValue .dayOfWeek e (l.valueAt .dayOfWeek t) = .ok r := by rw [nextValue, hr']
  rw [advance, advanceWeekday, hn, Except.ok_bind]
  by_cases he : r = l.valueAt .dayOfWeek t
  case pos =>
    rw [if_pos he]
    exact .inl ⟨(admits_eq_true_iff hf hd).mpr <| ha.eq_iff.mp he, rfl⟩
  case neg =>
    obtain ⟨k, hk, hpos, hle, hleast⟩ := daysAhead_eq hf hd ha he
    obtain ⟨d, hok, hclock, ho, hord⟩ := midnight_addDays_eq hle hr
    have hahead : t.date.ordinal + 1 ≤ d.date.ordinal ∧ d.date.ordinal ≤ t.date.ordinal + 6 := by
      omega
    rw [if_neg he, hk, hok]
    refine .inr ⟨(admits_eq_false_iff hf hd).mpr <| mt ha.eq_iff.mpr he, _, rfl, hclock, ho, hahead,
      ?_, fun u hu hlt => (admits_eq_false_iff hf hd).mpr fun hau => ?_, by simp⟩
    · rw [admits_eq_true_iff hf hd, admits_iff_admitsDay, hord]
      exact hleast.1
    · obtain ⟨m, hm⟩ := Nat.exists_eq_add_of_le <| Nat.le_of_lt hu
      rw [admits_iff_admitsDay, hm] at hau
      have := hleast.2 hau
      dsimp only at hlt
      omega

end Steps

end Layout

-- Every column that counts within a unit moves a cursor to the first instant of that unit that it
-- admits, or leaves it where it is; the next unit begins with its first instant. Years count within
-- the calendar: if the year column leaves the cursor where it is, no later year is left.
theorem advance_within_unit (h : Reachable s) (hc : c ≠ .dayOfWeek) (t : Instant) :
    ∃ a, s.layout.advance c (s.root c) t = .ok a ∧
      Layout.FirstInUnit s.layout c (s.root c) t a ∧
      (c ≠ .year → Layout.Rolls c t (Layout.roll c t)) ∧
      (c = .year → a.ok = false → ∀ y : Int, t.year ≤ y → y ≤ lastYear →
        (s.root .year).matches? (s.layout.domain .year) y = some false) := by
  have hw := h.sound.wellFormed h.one_le_firstYear
  obtain ⟨a, ha, hfirst⟩ := Layout.advance_first (hw.fits c) (hw.lower c) hc t
  refine ⟨a, ha, hfirst, fun hy => Layout.rolls_roll hc hy t, fun hy hno y hle hlast => ?_⟩
  subst hy
  obtain ⟨b, hb, hm⟩ := (hw.fits .year).matches?_eq (hw.lower .year) y
  obtain ⟨u, hu, huy⟩ := Layout.exists_in_year t hle hlast
  have hn := (Layout.admits_eq_false_iff (hw.fits .year) (hw.lower .year)).mp <|
    (hfirst.none hno).2 u hu trivial
  rw [Layout.Admits, Layout.valueAt, huy] at hn
  exact hb.trans <| congrArg some <| Bool.eq_false_iff.mpr fun hb => hn <| hm.mp hb

-- In February of a leap year no thirtieth day is left, so that March begins, and after 2023 no year
-- of a list of past ones.
theorem advance_within_unit_in_february :
    let s :=
      ((unrestricted ⟨.quartz, 2024, 100, 900⟩).after (.add 3 "30,31")).after (.add 6 "2019-2023")
    let d : Date := ⟨2024, 2, 28, by decide, by decide, by decide, by decide, by decide, by decide⟩
    let t : Instant := ⟨d, 1, none, by decide⟩
    Layout.FirstInUnit s.layout .dayOfMonth (s.root .dayOfMonth) t ⟨false, t⟩ ∧
      Layout.Rolls .dayOfMonth t (Layout.roll .dayOfMonth t) ∧
      Layout.FirstInUnit s.layout .year (s.root .year) t ⟨false, t⟩ ∧
      ∀ y : Int, 2024 ≤ y → y ≤ 9999 →
        (s.root .year).matches? (s.layout.domain .year) y = some false := by
  intro s d t
  have h : Reachable s := ((Reachable.unrestricted (l := ⟨.quartz, 2024, 100, 900⟩)
    (by decide)).edited _).edited _
  obtain ⟨a, ha, hfirst, hroll, -⟩ := advance_within_unit h (c := .dayOfMonth) (by decide) t
  obtain ⟨a', ha', hfirst', -, hno⟩ := advance_within_unit h (c := .year) (by decide) t
  have hday : (s.layout.advance .dayOfMonth (s.root .dayOfMonth) t).toOption = some ⟨false, t⟩ := by
    decide +kernel
  have hyear : (s.layout.advance .year (s.root .year) t).toOption = some ⟨false, t⟩ := by
    decide +kernel
  cases (Except.toOption_eq_some_iff.mp hday).symm.trans ha
  cases (Except.toOption_eq_some_iff.mp hyear).symm.trans ha'
  exact ⟨hfirst, hroll (by decide), hfirst', hno rfl rfl⟩

-- Wherever six days are left in the calendar, the weekday column keeps a cursor on a day that it
-- admits and moves it to midnight of the next such day otherwise. That is within a week, and
-- whether it is still within the month is told besides.
theorem weekday_advance (h : Reachable s) (hr : t.addDays 6 = .ok u) :
    let e := s.root .dayOfWeek
    ∃ b a, s.layout.admits .dayOfWeek e t = .ok b ∧ s.layout.advance .dayOfWeek e t = .ok a ∧
      (b → a = ⟨true, t⟩) ∧ (b = false → Layout.FirstDay s.layout e t a) := by
  have hw := h.sound.wellFormed h.one_le_firstYear
  rcases Layout.advance_firstDay (hw.fits .dayOfWeek) (hw.lower .dayOfWeek) hr with
    ⟨hb, ha⟩ | ⟨hb, a, ha, hf⟩
  · exact ⟨true, _, hb, ha, fun _ => rfl, nofun⟩
  · exact ⟨false, a, hb, ha, nofun, fun _ => hf⟩

-- From the last Wednesday of a January to the first Sunday of February, the weekday of number 0.
theorem weekday_advance_to_sunday :
    let s := (unrestricted ⟨.unix, 2024, 100, 900⟩).after (.add 5 "SUN")
    let d : Date := ⟨2024, 1, 31, by decide, by decide, by decide, by decide, by decide, by decide⟩
    let d' : Date := ⟨2024, 2, 4, by decide, by decide, by decide, by decide, by decide, by decide⟩
    let t : Instant := ⟨d, 1, none, by decide⟩
    (∃ u, t.addDays 6 = .ok u) ∧
      Layout.FirstDay s.layout (s.root .dayOfWeek) t ⟨false, t.startOf d'⟩ := by
  intro s d d' t
  have h : Reachable s :=
    (Reachable.unrestricted (l := ⟨.unix, 2024, 100, 900⟩) (by decide)).edited _
  have hroom : (t.addDays 6).toOption.isSome := by decide +kernel
  obtain ⟨u, hu⟩ := Except.exists_eq_ok_of_isSome hroom
  obtain ⟨b, a, hb, ha, -, hf⟩ := weekday_advance h hu
  have hno : (s.layout.admits .dayOfWeek (s.root .dayOfWeek) t).toOption = some false := by
    decide +kernel
  have hmoved : (s.layout.advance .dayOfWeek (s.root .dayOfWeek) t).toOption =
      some ⟨false, t.startOf d'⟩ := by decide +kernel
  cases (Except.toOption_eq_some_iff.mp hno).symm.trans hb
  cases (Except.toOption_eq_some_iff.mp hmoved).symm.trans ha
  exact ⟨⟨u, hu⟩, hf rfl⟩

end Cron
