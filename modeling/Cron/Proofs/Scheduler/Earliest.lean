import Cron.Proofs.Schedule.NextMatch
import Cron.Proofs.Scheduler.Treatment

-- The next occurrence of a job: the first whole minute that any of its schedules admits. Each
-- schedule is searched up to a last year of its own.

namespace Cron.Job

open Instant Schedule

variable {r t u : Instant} {j : Job} {s : Schedule} {ss ss' : List Schedule} {x y : Option Instant}

-- The first whole minute from `r` on that one of some schedules admits, before the search for it
-- ends; none if no schedule admits any.
structure FirstAmong (ss : List Schedule) (r : Instant) (x : Option Instant) : Prop where
  found : ∀ t, x = some t → r.ticks ≤ t.ticks ∧ t.second = 0 ∧ t.microsecond = 0 ∧
    t.offset = r.offset ∧
    ∃ s ∈ ss, t.year ≤ s.layout.searchLimit r ∧ s.matches? t = .ok true
  least : ∀ t, x = some t → ∀ s ∈ ss, ∀ u, u.isWholeMinute → r.ticks ≤ u.ticks →
    u.ticks < t.ticks → u.year ≤ s.layout.searchLimit r → s.matches? u = .ok false
  none  : x = none ↔ ∀ s ∈ ss, ∀ u, u.isWholeMinute → r.ticks ≤ u.ticks →
    u.year ≤ s.layout.searchLimit r → s.matches? u = .ok false

-- With more schedules, something is found at least as early.
theorem FirstAmong.mono (h : FirstAmong ss r x) (h' : FirstAmong ss' r y) (hs : ss ⊆ ss')
    (hx : x = some t) : ∃ t', y = some t' ∧ t'.ticks ≤ t.ticks ∧ t'.offset = t.offset := by
  obtain ⟨hle, hsec, hmicro, ho, s, hm, hy, hmatch⟩ := h.found t hx
  have hw : t.isWholeMinute := isWholeMinute_iff_second.mpr ⟨hsec, hmicro⟩
  cases y
  case none =>
    have hn := h'.none.mp rfl s (hs hm) t hw hle hy
    cases hmatch.symm.trans hn
  case some t' =>
    refine ⟨t', rfl, Nat.not_lt.mp fun hlt => ?_, (h'.found t' rfl).2.2.2.1.trans ho.symm⟩
    have hn := h'.least t' rfl s (hs hm) t hw hle hlt hy
    cases hmatch.symm.trans hn

-- In which order the schedules come, and how often, is of no matter.
theorem FirstAmong.congr (h : FirstAmong ss r x) (h' : FirstAmong ss' r y) (hs : ss ⊆ ss')
    (hs' : ss' ⊆ ss) : x = y := by
  cases x
  case none =>
    cases y
    case none => rfl
    case some t =>
      obtain ⟨t', ht', -⟩ := h'.mono h hs' rfl
      cases ht'
  case some t =>
    obtain ⟨t', rfl, hle, ho⟩ := h.mono h' hs rfl
    obtain ⟨t, ht, hge, -⟩ := h'.mono h hs' rfl
    cases ht
    exact congrArg some <| eq_of_ticks_eq (Nat.le_antisymm hge hle) ho.symm

theorem finds_of_reachable (h : Reachable s) (r : Instant) :
    ∃ x, s.next? r = .ok x ∧ s.layout.Finds s.roots (s.layout.searchLimit r) r x := by
  obtain ⟨o, ho, hf⟩ := Layout.search_finds (h.sound.wellFormed h.one_le_firstYear) r
  have ho : s.search r = .ok o := ho
  refine ⟨o.instant?, ?_, hf⟩
  rw [next?, ho]
  rfl

-- The earliest of what the schedules find one by one is the first among them.
theorem Earliest.firstAmong (h : ∀ s ∈ ss, Reachable s) (he : Earliest r ss x) :
    FirstAmong ss r x := by
  have hw (s) (hs : s ∈ ss) := (h s hs).sound.wellFormed (h s hs).one_le_firstYear
  -- A schedule that finds nothing admits nothing, and one that does finds nothing before `x`.
  have hfinds (s) (hs : s ∈ ss) : ∃ o, s.layout.Finds s.roots (s.layout.searchLimit r) r o ∧
      ∀ d, o = some d → ∃ d', x = some d' ∧ d'.NotLater d := by
    obtain ⟨o, ho, hle⟩ := he.least s hs
    obtain ⟨o', ho', hf⟩ := finds_of_reachable (h s hs) r
    cases ho.symm.trans ho'
    exact ⟨o, hf, hle⟩
  have hfound (t) (hx : x = some t) : ∃ s ∈ ss,
      s.layout.IsFirst s.roots (s.layout.searchLimit r) r t := by
    obtain ⟨s, hs, ht⟩ := he.found t hx
    obtain ⟨o, ho, hf⟩ := finds_of_reachable (h s hs) r
    cases ht.symm.trans ho
    cases hf
    case first hd => exact ⟨s, hs, hd⟩
  constructor
  case found =>
    intro t hx
    obtain ⟨s, hs, hd⟩ := hfound t hx
    obtain ⟨hsec, hmicro⟩ := isWholeMinute_iff_second.mp hd.whole
    exact ⟨hd.le, hsec, hmicro, hd.offset, s, hs, hd.inReach,
      matches?_eq_true (hw s hs) hd.admitted⟩
  case least =>
    intro t hx s hs u hu hle hlt hy
    apply matches?_eq_false (hw s hs)
    obtain ⟨o, hf, ho⟩ := hfinds s hs
    cases hf
    case none hn => exact hn u hu hle hy
    case first d hd =>
      obtain ⟨d', hd', hnl⟩ := ho d rfl
      cases hx.symm.trans hd'
      obtain ⟨_, _, ht⟩ := hfound t hx
      have htd := (notLater_iff.mp hnl).2
      simp only [universal, hd.offset, ht.offset] at htd
      exact hd.least u hu hle (by omega)
  case none =>
    constructor
    · intro hx s hs u hu hle hy
      apply matches?_eq_false (hw s hs)
      obtain ⟨o, hf, ho⟩ := hfinds s hs
      cases hf
      case none hn => exact hn u hu hle hy
      case first d hd =>
        obtain ⟨d', hd', -⟩ := ho d rfl
        cases hx.symm.trans hd'
    · intro hn
      cases x
      case none => rfl
      case some t =>
        obtain ⟨s, hs, hd⟩ := hfound t rfl
        have hf := hn s hs t hd.whole hd.le hd.inReach
        cases hf.symm.trans <| matches?_eq_true (hw s hs) hd.admitted

theorem recompute_firstAmong (h : ∀ s ∈ j.schedules, Reachable s) (now : Option Instant)
    (clock : Instant) :
    ∃ x, j.recompute (now.getD clock) = .ok { j with next := x } ∧
      FirstAmong j.schedules ((j.last <|> now).getD clock) x := by
  have hr : j.last.getD (now.getD clock) = (j.last <|> now).getD clock := by
    cases j.last <;> rfl
  obtain ⟨x, hx, he⟩ := exists_earliest (fun s hs => (h s hs).sound) ((j.last <|> now).getD clock)
  refine ⟨x, ?_, he.firstAmong h⟩
  rw [recompute, hr, hx, Except.ok_bind]

-- A job always comes by its next occurrence, which is the first that any of its schedules selects:
-- from `last` on if that is set, else from a given instant, else from the clock. The order of the
-- schedules is of no matter, and with one more schedule the next occurrence comes no later.
theorem next_is_first_of_all (h : ∀ s ∈ j.schedules, Reachable s) (now : Option Instant)
    (clock : Instant) :
    ∃ x, j.recompute (now.getD clock) = .ok { j with next := x } ∧
      FirstAmong j.schedules ((j.last <|> now).getD clock) x ∧
      (∀ ss, ss.Perm j.schedules →
        { j with schedules := ss }.recompute (now.getD clock) =
          .ok { j with schedules := ss, next := x }) ∧
      ∀ s, Reachable s → ∃ y,
        { j with schedules := j.schedules ++ [s] }.recompute (now.getD clock) =
          .ok { j with schedules := j.schedules ++ [s], next := y } ∧
        ∀ t, x = some t → ∃ t', y = some t' ∧ t'.ticks ≤ t.ticks ∧ t'.offset = t.offset := by
  obtain ⟨x, hx, hf⟩ := recompute_firstAmong h now clock
  refine ⟨x, hx, hf, fun ss hp => ?_, fun s hs => ?_⟩
  · have hss (s) (hs : s ∈ ss) : Reachable s := h s <| hp.mem_iff.mp hs
    obtain ⟨y, hy, hf'⟩ := recompute_firstAmong (j := { j with schedules := ss }) hss now clock
    rw [hy, hf.congr hf' hp.symm.subset hp.subset]
  · have hss (s') (hs' : s' ∈ j.schedules ++ [s]) : Reachable s' := by
      simp only [List.mem_append, List.mem_singleton] at hs'
      exact hs'.elim (h s') (· ▸ hs)
    obtain ⟨y, hy, hf'⟩ :=
      recompute_firstAmong (j := { j with schedules := j.schedules ++ [s] }) hss now clock
    exact ⟨y, hy, fun t ht => hf.mono hf' (List.subset_append_left ..) ht⟩

-- One of the schedules wants a thirtieth of February, the other one Sundays.
theorem next_is_first_of_all_beside_february :
    let never := ((unrestricted ⟨.quartz, 2024, 5, 900⟩).after (.add 3 "30")).after (.add 4 "FEB")
    let sundays := (unrestricted ⟨.unix, 2020, 100, 900⟩).after (.add 5 "SUN")
    let d : Date := ⟨2024, 1, 15, by decide, by decide, by decide, by decide, by decide, by decide⟩
    let clock : Instant := ⟨d, 1, none, by decide⟩
    let j := Job.new "a" (.own "Report") .unix [never, sundays] fun _ => .returns
    ∃ x, j.recompute clock = .ok { j with next := x } ∧ FirstAmong [never, sundays] clock x ∧
      { j with schedules := [sundays, never] }.recompute clock =
        .ok { j with schedules := [sundays, never], next := x } := by
  intro never sundays d clock j
  have hn := Reachable.unrestricted (l := ⟨.quartz, 2024, 5, 900⟩) (by decide)
  have hs := Reachable.unrestricted (l := ⟨.unix, 2020, 100, 900⟩) (by decide)
  have h : ∀ s ∈ j.schedules, Reachable s := by
    simp only [j, Job.new, List.mem_cons, List.not_mem_nil, or_false, forall_eq_or_imp, forall_eq]
    exact ⟨(hn.edited (.add 3 "30")).edited (.add 4 "FEB"), hs.edited (.add 5 "SUN")⟩
  obtain ⟨x, hx, hf, hp, -⟩ := next_is_first_of_all h none clock
  exact ⟨x, hx, hf, hp _ <| .swap ..⟩

end Cron.Job
