import Cron.Calendar.Instant
import Cron.Proofs.Calendar.Date

namespace Cron.Instant

variable {t u a b c : Instant} {d : Date} {n k : Int}

section Order

theorem dayMicros_le_ticks (t : Instant) : dayMicros ≤ t.ticks := by
  have := t.date.ordinal_pos
  rw [ticks]
  simp only [dayMicros]
  omega

-- Instants in order fall on days in order, and within a day at times in order.
theorem ordinal_le_of_ticks_le (h : t.ticks ≤ u.ticks) : t.date.ordinal ≤ u.date.ordinal := by
  have := u.clock_lt
  simp only [ticks, dayMicros] at *
  omega

theorem clock_le_of_ticks_le (hd : t.date = u.date) (h : t.ticks ≤ u.ticks) :
    t.clock ≤ u.clock := by
  simp only [ticks, hd] at h
  omega

theorem year_le_of_ticks_le (h : t.ticks ≤ u.ticks) : t.year ≤ u.year :=
  Date.year_le_of_ordinal_le <| ordinal_le_of_ticks_le h

theorem month_le_of_ticks_le (hy : t.year = u.year) (h : t.ticks ≤ u.ticks) : t.month ≤ u.month :=
  Date.month_le_of_ordinal_le hy <| ordinal_le_of_ticks_le h

theorem day_le_of_ticks_le (hy : t.year = u.year) (hm : t.month = u.month) (h : t.ticks ≤ u.ticks) :
    t.day ≤ u.day := by
  have ho := ordinal_le_of_ticks_le h
  have := Date.ordinal_add_day hy hm
  simp only [day]
  omega

theorem eq_of_ticks_eq (h : t.ticks = u.ticks) (ho : t.offset = u.offset) : t = u := by
  have hd : t.date.ordinal = u.date.ordinal := Nat.le_antisymm
    (ordinal_le_of_ticks_le <| Nat.le_of_eq h) (ordinal_le_of_ticks_le <| Nat.le_of_eq h.symm)
  have hd : t.date = u.date := Date.eq_of_ordinal_eq hd
  have hc : t.clock = u.clock := Nat.le_antisymm
    (clock_le_of_ticks_le hd <| Nat.le_of_eq h)
    (clock_le_of_ticks_le hd.symm <| Nat.le_of_eq h.symm)
  exact Instant.ext hd hc ho

theorem ticks_startOf (t : Instant) (d : Date) : (t.startOf d).ticks = dayMicros * d.ordinal := by
  simp [ticks, startOf]

theorem ticks_lt_startOf_iff : u.ticks < (t.startOf d).ticks ↔ u.date.ordinal < d.ordinal := by
  have := u.clock_lt
  rw [ticks_startOf, ticks]
  simp only [dayMicros] at *
  omega

end Order

section Ticks

theorem ofTicks_eq_ok (h : dayMicros ≤ n ∧ n < endTicks) :
    ∃ d, t.ofTicks n = .ok d ∧ (d.ticks : Int) = n ∧ d.offset = t.offset := by
  have hn : 1 ≤ n / (dayMicros : Nat) ∧ n / (dayMicros : Nat) ≤ (Date.lastOrdinal : Nat) := by
    simp only [endTicks, dayMicros] at h ⊢
    omega
  have ⟨d, hd, ho⟩ := Date.ofOrdinal_eq_ok hn
  rw [ofTicks, hd]
  refine ⟨_, rfl, ?_, rfl⟩
  simp only [ticks, dayMicros] at ho ⊢
  omega

theorem of_ofTicks_eq_ok (h : t.ofTicks n = .ok u) : (u.ticks : Int) = n ∧ u.offset = t.offset := by
  rw [ofTicks] at h
  by_cases hn : 1 ≤ n / (dayMicros : Nat) ∧ n / (dayMicros : Nat) ≤ (Date.lastOrdinal : Nat)
  case pos =>
    have ⟨date, hd, ho⟩ := Date.ofOrdinal_eq_ok hn
    rw [hd] at h
    cases h
    refine ⟨?_, rfl⟩
    simp only [ticks, dayMicros] at ho ⊢
    omega
  case neg =>
    rw [Date.ofOrdinal, if_neg hn] at h
    cases h

theorem add_zero (t : Instant) : t.add 0 = .ok t := by
  have hn : (dayMicros : Int) ≤ t.ticks + 0 ∧ (t.ticks + 0 : Int) < endTicks := by
    have := t.dayMicros_le_ticks
    have := t.ticks_lt_endTicks
    omega
  have ⟨u, hu, ht, ho⟩ := ofTicks_eq_ok (t := t) hn
  rw [add, hu, eq_of_ticks_eq (by omega) ho]

theorem ofTicks_eq_error (h : endTicks ≤ n) : t.ofTicks n = .error .pastCalendar := by
  have hn : (Date.lastOrdinal : Int) < n / (dayMicros : Nat) := by
    simp only [endTicks, dayMicros] at h ⊢
    omega
  rw [ofTicks, Date.ofOrdinal_eq_error hn]

theorem isWholeMinute_iff : t.isWholeMinute ↔ t.clock % minuteMicros = 0 := by
  simp [isWholeMinute]

-- Days consist of whole minutes.
theorem isWholeMinute_iff_ticks : t.isWholeMinute ↔ t.ticks % minuteMicros = 0 := by
  rw [isWholeMinute_iff, ticks]
  simp only [minuteMicros, dayMicros]
  omega

-- From one whole minute to the next.
theorem add_minute_le (ht : t.isWholeMinute) (hu : u.isWholeMinute) (h : t.ticks < u.ticks) :
    t.ticks + minuteMicros ≤ u.ticks := by
  rw [isWholeMinute_iff_ticks] at ht hu
  simp only [minuteMicros] at *
  omega

end Ticks

section Clock

-- The fields of an instant that was set to a time of day.
theorem of_atClock_eq_ok (h : t.atClock n k = .ok u) :
    u.date = t.date ∧ (u.hour : Int) = n ∧ (u.minute : Int) = k := by
  rw [atClock] at h
  split at h
  case isFalse => cases h
  case isTrue =>
    split at h
    case isFalse => cases h
    case isTrue =>
      cases h
      simp only [hour, minute, hourMicros, minuteMicros, true_and]
      omega

end Clock

section Comparison

-- Earlier by universal time, or by the local calendar where neither has an offset.
def Earlier (a b : Instant) : Prop := a.before b = .ok true

theorem earlier_iff : a.Earlier b ↔ a.sameKind b ∧ a.universal < b.universal := by
  rw [Earlier, before]
  split <;> simp_all

theorem before_eq_ok_false : a.before b = .ok false ↔ a.sameKind b ∧ b.universal ≤ a.universal := by
  rw [before]
  split <;> simp_all

theorem Earlier.trans (h : a.Earlier b) (h' : b.Earlier c) : a.Earlier c := by
  rw [earlier_iff, sameKind, beq_iff_eq] at *
  exact ⟨h.1.trans h'.1, Int.lt_trans h.2 h'.2⟩

theorem universal_of_add (h : t.add k = .ok u) :
    u.universal = t.universal + k ∧ u.offset = t.offset := by
  have ⟨ht, ho⟩ := of_ofTicks_eq_ok h
  refine ⟨?_, ho⟩
  rw [universal, universal, ho]
  omega

end Comparison

section Span

-- What comes before an instant that was computed; everything if the calendar ends before it.
def Precedes (u : Instant) : Except Fault Instant → Prop
  | .ok d    => u.ticks < d.ticks
  | .error _ => True

-- A whole minute was computed that is later than `t`, unless the calendar ends before it, and `P`
-- holds of every instant from `t` on that precedes it.
structure Leads (t : Instant) (x : Except Fault Instant) (P : Instant → Prop) : Prop where
  later   : ∀ d, x = .ok d → t.ticks < d.ticks ∧ d.isWholeMinute ∧ d.offset = t.offset
  fault   : x ≠ .error .zeroStep
  between : ∀ u, t.ticks ≤ u.ticks → u.Precedes x → P u

theorem Leads.imp {x : Except Fault Instant} {P Q : Instant → Prop} (h : Leads t x P)
    (hi : ∀ u, t.ticks ≤ u.ticks → P u → Q u) : Leads t x Q where
  later           := h.later
  fault           := h.fault
  between u hu hx := hi u hu <| h.between u hu hx

-- Moving to the beginning of a later day.
theorem leads_startOf (hd : t.date.ordinal < d.ordinal) :
    Leads t (.ok (t.startOf d)) fun u =>
      t.date.ordinal ≤ u.date.ordinal ∧ u.date.ordinal < d.ordinal where
  later _ h := by
    cases h
    exact ⟨ticks_lt_startOf_iff.mpr hd, by simp [isWholeMinute, startOf], rfl⟩
  fault := nofun
  between u hu hx := ⟨ordinal_le_of_ticks_le hu, ticks_lt_startOf_iff.mp hx⟩

-- Moving to a later time of the same day.
theorem leads_clock {d : Instant} (hd : d.date = t.date) (ho : d.offset = t.offset)
    (hm : d.clock % minuteMicros = 0) (hc : t.clock < d.clock) :
    Leads t (.ok d) fun u => t.clock ≤ u.clock ∧ u.clock < d.clock where
  later _ h := by
    cases h
    refine ⟨?_, isWholeMinute_iff.mpr hm, ho⟩
    rw [ticks, ticks, hd]
    exact Nat.add_lt_add_right hc _
  fault := nofun
  between u hu hx := by
    have hx : u.ticks < d.ticks := hx
    have := u.clock_lt
    have := d.clock_lt
    rw [ticks, ticks, hd] at hx
    rw [ticks, ticks] at hu
    simp only [dayMicros] at *
    omega

-- Moving by whole minutes.
theorem leads_ofTicks {n : Nat} (hn : t.ticks < n) (hm : n % minuteMicros = 0) :
    Leads t (t.ofTicks n) fun u => t.ticks ≤ u.ticks ∧ u.ticks < n := by
  by_cases h : n < endTicks
  case pos =>
    have hd := t.dayMicros_le_ticks
    have ⟨d, hok, ht, ho⟩ := ofTicks_eq_ok (t := t) (n := n) (by omega)
    rw [hok]
    refine ⟨fun _ h => ?_, nofun, fun u hu hx => ⟨hu, ?_⟩⟩
    · cases h
      refine ⟨by omega, isWholeMinute_iff_ticks.mpr ?_, ho⟩
      rw [show d.ticks = n by omega]
      exact hm
    · rw [Precedes] at hx
      omega
  case neg =>
    rw [ofTicks_eq_error (by omega)]
    exact ⟨nofun, nofun, fun u hu _ => ⟨hu, Nat.lt_of_lt_of_le u.ticks_lt_endTicks <| by omega⟩⟩

end Span

end Cron.Instant
