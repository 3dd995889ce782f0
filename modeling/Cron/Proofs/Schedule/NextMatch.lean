import Cron.Proofs.Schedule.Reachable
import Cron.Proofs.Search.First

namespace Cron

open Schedule

variable {s : Schedule} {r t u : Instant} {limit : Int}

theorem Instant.isWholeMinute_iff_second :
    t.isWholeMinute ↔ t.second = 0 ∧ t.microsecond = 0 := by
  rw [isWholeMinute_iff]
  simp only [second, microsecond, minuteMicros, secondMicros]
  omega

namespace Schedule

theorem Sound.wellFormed (h : s.Sound) (hy : 1 ≤ s.layout.firstYear) :
    s.layout.WellFormed s.roots where
  fits c := (h.proper c).fits
  lower c := by
    cases c
    case dayOfWeek => exact s.layout.sunday_mem.1
    case year => exact Int.le_trans (by decide) hy
    all_goals simp [Layout.domain]

-- Whether a schedule admits an instant is always answered, column by column.
theorem matchesIn_eq (h : s.layout.WellFormed s.roots) (t : Instant) (cs : List Column) :
    ∃ b, s.matchesIn t cs = .ok b ∧ (b ↔ ∀ c ∈ cs, s.layout.Admits c (s.root c) t) := by
  induction cs
  case nil => exact ⟨true, rfl, by simp⟩
  case cons c cs hi =>
    have ⟨b, hb, ha⟩ := Layout.admits_eq (h.fits c) (h.lower c) t
    have ⟨b', hb', ha'⟩ := hi
    have hb : s.layout.admits c (s.root c) t = .ok b := hb
    rw [matchesIn, hb]
    simp only [List.forall_mem_cons]
    cases b
    case false => exact ⟨false, rfl, nofun, fun hc => absurd (ha.mpr hc.1) nofun⟩
    case true  => exact ⟨b', hb', ha'.trans (iff_and_self.mpr fun _ => ha.mp rfl)⟩

theorem matches?_eq (h : s.layout.WellFormed s.roots) (t : Instant) :
    ∃ b, s.matches? t = .ok b ∧ (b ↔ s.layout.Admitted s.roots t) := by
  have ⟨b, hb, ha⟩ := matchesIn_eq h t Column.all
  refine ⟨b, hb, ha.trans ⟨fun hc c => hc c ?_, fun hc c _ => hc c⟩⟩
  cases c <;> decide

theorem matches?_eq_true (h : s.layout.WellFormed s.roots) (ha : s.layout.Admitted s.roots t) :
    s.matches? t = .ok true := by
  have ⟨b, hb, hi⟩ := matches?_eq h t
  rw [hb, hi.mpr ha]

theorem matches?_eq_false (h : s.layout.WellFormed s.roots) (ha : ¬s.layout.Admitted s.roots t) :
    s.matches? t = .ok false := by
  have ⟨b, hb, hi⟩ := matches?_eq h t
  rw [hb, Bool.eq_false_iff.mpr fun hb => ha <| hi.mp hb]

-- The first whole minute from `r` on that a schedule admits, if it comes before the search ends.
structure FirstMatch (s : Schedule) (limit : Int) (r t : Instant) : Prop where
  le          : r.ticks ≤ t.ticks
  second      : t.second = 0
  microsecond : t.microsecond = 0
  offset      : t.offset = r.offset
  inReach     : t.year ≤ limit
  isMatch     : s.matches? t = .ok true
  least       : ∀ u, u.isWholeMinute → r.ticks ≤ u.ticks → u.ticks < t.ticks →
    s.matches? u = .ok false

-- The search never fails. What it finds is the first match from `r` on; if it finds nothing, there
-- is no match up to the end of the last year that it looks into.
theorem next_is_first_match (h : Reachable s) (r : Instant) :
    let limit := min (max (s.layout.domain .year).upper (r.year + s.layout.horizon)) 9998
    ∃ found, s.next? r = .ok found ∧
      (∀ t, found = some t → s.FirstMatch limit r t) ∧
      (found = none → ∀ u, u.isWholeMinute → r.ticks ≤ u.ticks → u.year ≤ limit →
        s.matches? u = .ok false) := by
  intro limit
  have hw := h.sound.wellFormed h.one_le_firstYear
  obtain ⟨o, ho, hf⟩ : ∃ o, s.search r = .ok o ∧ s.layout.Finds s.roots limit r o.instant? :=
    Layout.search_finds hw r
  have hn : s.next? r = .ok o.instant? := by
    rw [next?, ho]
    rfl
  refine ⟨o.instant?, hn, ?_⟩
  generalize o.instant? = found at hf
  cases hf
  case first d hd =>
    refine ⟨fun t ht => ?_, nofun⟩
    cases ht
    have ⟨hs, hm⟩ := Instant.isWholeMinute_iff_second.mp hd.whole
    exact ⟨hd.le, hs, hm, hd.offset, hd.inReach, matches?_eq_true hw hd.admitted,
      fun u hu hle hlt => matches?_eq_false hw <| hd.least u hu hle hlt⟩
  case none hn => exact ⟨nofun, fun _ u hu hle hy => matches?_eq_false hw <| hn u hu hle hy⟩

theorem next_is_first_match_on_leap_days :
    let s := ((unrestricted ⟨.quartz, 2024, 100, 900⟩).after (.add 3 "29")).after (.add 4 "FEB")
    let d : Date := ⟨2025, 3, 1, by decide, by decide, by decide, by decide, by decide, by decide⟩
    let r : Instant := ⟨d, 1, none, by decide⟩
    ∃ found, s.next? r = .ok found ∧ (∀ t, found = some t → s.FirstMatch 2125 r t) ∧
      (found = none → ∀ u : Instant, u.isWholeMinute → r.ticks ≤ u.ticks → (u.year : Int) ≤ 2125 →
        s.matches? u = .ok false) := by
  intro s d r
  have h := Reachable.unrestricted (l := ⟨.quartz, 2024, 100, 900⟩) (by decide)
  have hs : s.layout = ⟨.quartz, 2024, 100, 900⟩ := rfl
  have hl : min (max (s.layout.domain .year).upper (r.year + s.layout.horizon)) 9998 = 2125 := by
    simp [hs, r, d, Layout.domain, Instant.year]
  have hm := next_is_first_match ((h.edited (.add 3 "29")).edited (.add 4 "FEB")) r
  rw [hl] at hm
  exact hm

end Schedule

end Cron
