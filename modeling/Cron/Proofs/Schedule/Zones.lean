import Cron.Proofs.Schedule.Enumeration
import Cron.Proofs.Search.Zones

namespace Cron.Schedule

open Instant

variable {s : Schedule} {t : Instant} {zone : Option Int}

theorem search_inZone (zone : Option Int) (s : Schedule) (t : Instant) :
    s.search (t.inZone zone) = (s.search t).map (Outcome.inZone zone) :=
  Layout.search_inZone zone s.roots t

theorem next?_inZone (zone : Option Int) (s : Schedule) (t : Instant) :
    s.next? (t.inZone zone) = (s.next? t).map (Option.map (Instant.inZone zone)) := by
  rw [next?, next?, search_inZone]
  cases s.search t
  case error => rfl
  case ok o  => exact congrArg Except.ok <| o.instant?_inZone zone

theorem matchesIn_inZone (zone : Option Int) (s : Schedule) (t : Instant) (cs : List Column) :
    s.matchesIn (t.inZone zone) cs = s.matchesIn t cs := by
  induction cs
  case nil          => rfl
  case cons c cs hi => rw [matchesIn, matchesIn, Layout.admits_inZone, hi]

-- By induction on how many are asked for; each search begins a minute past the match before it, on
-- either clock.
theorem nextN_inZone (zone : Option Int) (s : Schedule) (n : Nat) (t : Instant) :
    s.nextN n (t.inZone zone) = (s.nextN n t).map (List.map (Instant.inZone zone)) := by
  induction n generalizing t
  case zero => rfl
  case succ n hi =>
    have hz := search_inZone zone s t
    cases hs : s.search t
    case error f =>
      rw [hs] at hz
      rw [nextN_of_error hs, nextN_of_error hz]
      rfl
    case ok o =>
      rw [hs] at hz
      have hoz := o.instant?_inZone zone
      cases ho : o.instant?
      case none =>
        rw [ho] at hoz
        rw [nextN_of_none hs ho, nextN_of_none hz hoz]
        rfl
      case some u =>
        rw [ho] at hoz
        have hbz := add_inZone zone u minuteMicros
        cases hb : u.add minuteMicros
        case error f =>
          rw [hb] at hbz
          rw [nextN_of_fault hs ho hb, nextN_of_fault hz hoz hbz]
          rfl
        case ok b =>
          rw [hb] at hbz
          rw [nextN_of_some hs ho hb, nextN_of_some hz hoz hbz, hi]
          cases s.nextN n b <;> rfl

-- Whatever offset is attached to an instant, a schedule finds and admits the same by the clock with
-- that offset as without one.
theorem zones_agree (h : Reachable s) (t : Instant) (zone : Option Int) :
    (∃ found, s.next? t = .ok found ∧ s.next? (t.inZone zone) = .ok (found.map (·.inZone zone))) ∧
    (∃ b, s.matches? t = .ok b ∧ s.matches? (t.inZone zone) = .ok b) ∧
    ∀ n, ∃ ts, s.nextN n t = .ok ts ∧ s.nextN n (t.inZone zone) = .ok (ts.map (·.inZone zone)) := by
  have hw := h.sound.wellFormed h.one_le_firstYear
  refine ⟨?_, ?_, fun n => ?_⟩
  · obtain ⟨found, hf, -⟩ := next_is_first_match h t
    exact ⟨found, hf, by rw [next?_inZone, hf]; rfl⟩
  · obtain ⟨b, hb, -⟩ := matches?_eq hw t
    exact ⟨b, hb, (matchesIn_inZone zone s t _).trans hb⟩
  · obtain ⟨ts, hts, -⟩ := nextN_enumerates hw n t
    exact ⟨ts, hts, by rw [nextN_inZone, hts]; rfl⟩

-- Nine hours ahead of universal time, at the end of a month.
theorem zones_agree_nine_hours_ahead :
    let s := ((unrestricted ⟨.quartz, 2024, 100, 900⟩).after (.add 3 "29")).after (.add 4 "FEB")
    let d : Date := ⟨2025, 2, 28, by decide, by decide, by decide, by decide, by decide, by decide⟩
    let t : Instant := ⟨d, 1, none, by decide⟩
    let zone : Option Int := some (9 * hourMicros)
    (∃ found, s.next? t = .ok found ∧ s.next? (t.inZone zone) = .ok (found.map (·.inZone zone))) ∧
    (∃ b, s.matches? t = .ok b ∧ s.matches? (t.inZone zone) = .ok b) ∧
    ∀ n, ∃ ts, s.nextN n t = .ok ts ∧
      s.nextN n (t.inZone zone) = .ok (ts.map (·.inZone zone)) := by
  intro s d t zone
  have h := Reachable.unrestricted (l := ⟨.quartz, 2024, 100, 900⟩) (by decide)
  exact zones_agree ((h.edited (.add 3 "29")).edited (.add 4 "FEB")) t zone

end Cron.Schedule
