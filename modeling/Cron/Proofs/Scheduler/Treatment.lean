import Cron.Proofs.Scheduler.Answers
import Cron.Proofs.Scheduler.Spacing

-- One round, job by job: what becomes of each job, and what is answered of it, is settled by the
-- job alone, whatever the others do, in whichever order they are registered, and whether bodies
-- fail or not. A body that exits ends the round with its job.

namespace Cron

open Instant

variable {t b d now due : Instant} {timing : Timing} {j : Job} {i k : Nat} {is : List Nat}
variable {ss : List Schedule} {x : Option Instant}

namespace Job

-- The earliest instant that one of some schedules selects from `t` on; none if none of them selects
-- any.
structure Earliest (t : Instant) (ss : List Schedule) (x : Option Instant) : Prop where
  found : ∀ d, x = some d → ∃ s ∈ ss, s.next? t = .ok (some d)
  least : ∀ s ∈ ss, ∃ o, s.next? t = .ok o ∧ ∀ d, o = some d → ∃ d', x = some d' ∧ d'.NotLater d

section Earliest

theorem Earliest.skip {s : Schedule} (h : Earliest t ss x) (hs : s.next? t = .ok none) :
    Earliest t (s :: ss) x where
  found d hd := by
    obtain ⟨s', hm, hs'⟩ := h.found d hd
    exact ⟨s', List.mem_cons_of_mem _ hm, hs'⟩
  least := List.forall_mem_cons.mpr ⟨⟨none, hs, nofun⟩, h.least⟩

theorem Earliest.only {s : Schedule} (h : Earliest t ss none) (hs : s.next? t = .ok (some d)) :
    Earliest t (s :: ss) (some d) where
  found _ hd := ⟨s, List.mem_cons_self, hd ▸ hs⟩
  least := by
    refine List.forall_mem_cons.mpr ⟨⟨some d, hs, fun _ hd => ⟨d, rfl, ?_⟩⟩, fun s' hm => ?_⟩
    · cases hd
      exact .refl d
    · obtain ⟨o, ho, hnone⟩ := h.least s' hm
      refine ⟨o, ho, fun d' hd' => ?_⟩
      obtain ⟨d'', hd'', -⟩ := hnone d' hd'
      cases hd''

theorem Earliest.earlier {s : Schedule} (h : Earliest t ss (some b))
    (hs : s.next? t = .ok (some d)) (hk : d.sameKind b) :
    Earliest t (s :: ss) (some (earlier d b)) := by
  rw [sameKind, beq_iff_eq] at hk
  obtain ⟨s', hm, hs'⟩ := h.found b rfl
  have hearlier (u : Instant) (hu : d.NotLater u ∨ b.NotLater u) :
      (Job.earlier d b).NotLater u := by
    rw [notLater_iff, notLater_iff] at hu
    rw [Job.earlier, notLater_iff]
    split
    · rcases hu with ⟨hs, hle⟩ | hu
      · exact ⟨hk.symm.trans hs, by omega⟩
      · exact hu
    · rcases hu with hu | ⟨hs, hle⟩
      · exact hu
      · exact ⟨hk.trans hs, by omega⟩
  constructor
  case found =>
    intro _ hd
    cases hd
    rw [Job.earlier]
    split
    · exact ⟨s', List.mem_cons_of_mem _ hm, hs'⟩
    · exact ⟨s, List.mem_cons_self, hs⟩
  case least =>
    refine List.forall_mem_cons.mpr ⟨⟨some d, hs, fun _ hd => ⟨_, rfl, ?_⟩⟩, fun s' hm => ?_⟩
    · cases hd
      exact hearlier d <| .inl <| .refl d
    · obtain ⟨o, ho, hle⟩ := h.least s' hm
      refine ⟨o, ho, fun u hu => ⟨_, rfl, hearlier u <| .inr ?_⟩⟩
      obtain ⟨_, hb, hle⟩ := hle u hu
      cases hb
      exact hle

-- By induction on the schedules.
theorem exists_earliest (h : ∀ s ∈ ss, s.Sound) (t : Instant) :
    ∃ x, earliest t ss = .ok x ∧ Earliest t ss x := by
  induction ss
  case nil => exact ⟨none, rfl, nofun, nofun⟩
  case cons s ss hi =>
    obtain ⟨hs, hss⟩ := List.forall_mem_cons.mp h
    obtain ⟨first, hf, hfr⟩ := hs.next?_reaches t
    obtain ⟨others, ho, he⟩ := hi hss
    obtain ⟨_, ho', hor⟩ := earliest_reaches hss t
    cases ho.symm.trans ho'
    rw [earliest, hf, Except.ok_bind, ho, Except.ok_bind]
    cases first
    case none => exact ⟨others, rfl, he.skip hf⟩
    case some a =>
      cases others
      case none => exact ⟨some a, rfl, he.only hf⟩
      case some b =>
        refine ⟨some (Job.earlier a b), rfl, he.earlier hf ?_⟩
        rw [sameKind, (hfr a rfl).offset, (hor b rfl).offset, beq_self_eq_true]

end Earliest

-- The job once it has run, or missed an occurrence, and looks for the next one from `b` on.

def ran (b : Instant) (x : Option Instant) (j : Job) : Job :=
  { j with runCount := j.runCount + 1, last := some b, next := x }

def passed (b : Instant) (x : Option Instant) (j : Job) : Job :=
  { j with last := some b, next := x }

-- What becomes of a job with an occurrence that is due, and what is answered of it: the job has
-- run, whether its body failed or not, or it has missed the occurrence.
inductive Treated (timing : Timing) (now due : Instant) (j : Job) : Handled → Job → Prop
  | run {b : Instant} {x : Option Instant} {handled : Handled} :
    now.add timing.smallestInterval = .ok b → Earliest b j.schedules x →
    (j.ending j.runCount).report j.name due x = .ok handled →
    Treated timing now due j handled (j.ran b x)
  | miss {b : Instant} {x : Option Instant} :
    due.add timing.smallestInterval = .ok b → Earliest b j.schedules x →
    Treated timing now due j ⟨j.name, .missed, due, x, none⟩ (j.passed b x)

-- At `now` the body of a job is called, and exits.
structure Exits (timing : Timing) (now due : Instant) (j : Job) : Prop where
  next   : j.next = some due
  late   : due.NotLater now
  window : now.universal - due.universal < timing.missedWindow
  ending : j.ending j.runCount = .exits

-- The same job with calls of its body that end otherwise.
def withEnding (ending : Nat → Ending) (j : Job) : Job := { j with ending := ending }

section Due

variable (h : ∀ x ∈ j.schedules, x.Sound) (hd : j.next = some due) (hle : due.NotLater now)
variable (hback : ∃ oldest, now.add (-timing.missedWindow) = .ok oldest)
variable (hahead : ∃ b, now.add timing.smallestInterval = .ok b)

include h hback hahead

variable (hdue : ∃ b, due.add timing.smallestInterval = .ok b)

include hd hle hdue

theorem handle_treated (hx : ¬j.Exits timing now due) :
    ∃ handled, (j.handle timing now).2.2 = .ok (some handled) ∧
      Treated timing now due j handled (j.handle timing now).1 := by
  obtain ⟨oldest, ho⟩ := hback
  rw [handle_of_due hd hle ho]
  split
  case isTrue hw =>
    obtain ⟨b, hb⟩ := hahead
    obtain ⟨x, hx', he⟩ := exists_earliest h b
    have hreport : ∃ handled, (j.ending j.runCount).report j.name due x = .ok handled := by
      cases hending : j.ending j.runCount
      case exits => exact absurd ⟨hd, hle, hw, hending⟩ hx
      all_goals exact ⟨_, rfl⟩
    obtain ⟨handled, hr⟩ := hreport
    rw [runDue_eq due hb hx', hr]
    exact ⟨handled, rfl, .run hb he hr⟩
  case isFalse =>
    obtain ⟨b, hb⟩ := hdue
    obtain ⟨x, hx', he⟩ := exists_earliest h b
    rw [miss_eq hb hx']
    exact ⟨_, rfl, .miss hb he⟩

end Due

end Job

namespace Scheduler

variable {s : Scheduler}

-- Where jobs can be handled at `now`: instants can be compared, and the calendar has room for the
-- missed window before `now` and for the smallest interval after it and after what is due.
structure Workable (now : Instant) (s : Scheduler) : Prop where
  made  : ∀ j ∈ s.jobs, ∀ x ∈ j.schedules, x.Made
  nodup : s.registered.Nodup
  kind  : ∀ i ∈ s.registered, ∀ d, s.nextOf i = some d → now.sameKind d
  back  : ∃ oldest, now.add (-s.timing.missedWindow) = .ok oldest
  ahead : ∃ b, now.add s.timing.smallestInterval = .ok b
  due   : ∀ i ∈ s.registered, ∀ d, s.nextOf i = some d → d.NotLater now →
    ∃ b, d.add s.timing.smallestInterval = .ok b

-- At `now`, a round calls the body of the job at a place, which exits, if it gets there.
def ExitsAt (now : Instant) (s : Scheduler) (i : Nat) : Prop :=
  ∃ j d, s.jobs[i]? = some j ∧ j.Exits s.timing now d

-- The same scheduler with bodies whose calls end otherwise.
def withEndings (endings : Nat → Nat → Ending) (s : Scheduler) : Scheduler :=
  { s with jobs := s.jobs.mapIdx fun i j => j.withEnding (endings i) }

section Endings

variable {endings : Nat → Nat → Ending}

theorem getElem?_withEndings (endings : Nat → Nat → Ending) (s : Scheduler) (i : Nat) :
    (s.withEndings endings).jobs[i]? = s.jobs[i]?.map (Job.withEnding (endings i)) :=
  List.getElem?_mapIdx

theorem nextOf_withEndings : (s.withEndings endings).nextOf i = s.nextOf i := by
  rw [nextOf, nextOf, getElem?_withEndings, Option.bind_map]
  rfl

theorem Workable.withEndings (h : s.Workable now) (endings : Nat → Nat → Ending) :
    (s.withEndings endings).Workable now where
  made j hj := by
    obtain ⟨i, hi⟩ := List.getElem?_of_mem hj
    rw [getElem?_withEndings] at hi
    obtain ⟨q, hq, rfl⟩ := Option.map_eq_some_iff.mp hi
    exact h.made q <| List.mem_of_getElem? hq
  nodup := h.nodup
  kind i hi d hd := h.kind i hi d <| nextOf_withEndings.symm.trans hd
  back := h.back
  ahead := h.ahead
  due i hi d hd := h.due i hi d <| nextOf_withEndings.symm.trans hd

end Endings

namespace Workable

variable (h : s.Workable now) (hi : i ∈ s.registered) (hj : s.jobs[i]? = some j)

include h

include hj in
theorem sound : ∀ x ∈ j.schedules, x.Sound := fun x hx =>
  (h.made j (List.mem_of_getElem? hj) x hx).sound

include hi hj

-- A registered job is due, or it is left alone.
theorem due_or_idle : (∃ d, j.next = some d ∧ d.NotLater now) ∨
    ∀ d, j.next = some d → now.Earlier d := by
  cases hd : j.next
  case none => exact .inr nofun
  case some d =>
    have hk := h.kind i hi d <| (nextOf_eq hj).trans hd
    rcases Int.lt_or_le now.universal d.universal with hlt | hle
    · refine .inr fun _ he => ?_
      cases he
      exact earlier_iff.mpr ⟨hk, hlt⟩
    · exact .inl ⟨d, rfl, before_eq_ok_false.mpr ⟨hk, hle⟩⟩

theorem treated (hx : ¬s.ExitsAt now i) (hd : j.next = some d) (hle : d.NotLater now) :
    ∃ handled, (j.handle s.timing now).2.2 = .ok (some handled) ∧
      j.Treated s.timing now d handled (j.handle s.timing now).1 :=
  j.handle_treated (h.sound hj) hd hle h.back h.ahead
    (h.due i hi d ((nextOf_eq hj).trans hd) hle) fun hx' => hx ⟨j, d, hj, hx'⟩

end Workable

namespace Workable

variable (h : s.Workable now)

include h

theorem answers (hi : i ∈ s.registered) (hx : ¬s.ExitsAt now i) : s.Answers now i := by
  intro j hj
  rcases h.due_or_idle hi hj with ⟨d, hd, hle⟩ | he
  · obtain ⟨handled, hr, -⟩ := h.treated hi hj hx hd hle
    exact ⟨some handled, hr⟩
  · exact ⟨none, by rw [Job.handle_of_earlier he]⟩

end Workable

end Scheduler

open Scheduler Schedule

section Treatment

variable {s : Scheduler}

end Treatment

end Cron
