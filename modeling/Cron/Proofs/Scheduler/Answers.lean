import Cron.Proofs.Scheduler.CatchUp
import Cron.Proofs.Scheduler.Round

-- When a scheduler answers. Where no instant has an offset, a round ends with a fault only where
-- the calendar does: before the missed window behind the clock, or within the smallest interval
-- after an occurrence that was missed. A thread does not stop where there is room for both. A round
-- without a fault answers, unless a body exits.

namespace Cron

open Instant

variable {now clock d due b : Instant} {timing : Timing} {j j' : Job} {i k : Nat} {is : List Nat}

namespace Timing

-- At `now`, the calendar leaves room for handling an occurrence that was due at `due`.
structure Room (timing : Timing) (now due : Instant) : Prop where
  back  : ∃ oldest, now.add (-timing.missedWindow) = .ok oldest
  ahead : timing.Missed due now → ∃ b, due.add timing.smallestInterval = .ok b

-- Around an instant, the calendar leaves room for the missed window and for the smallest interval.
structure Roomy (timing : Timing) (now : Instant) : Prop where
  interval : 0 ≤ timing.smallestInterval
  back     : ∃ oldest, now.add (-timing.missedWindow) = .ok oldest
  ahead    : ∃ b, now.add timing.smallestInterval = .ok b

theorem Roomy.room (h : timing.Roomy now) (ho : d.offset = now.offset)
    (hle : d.universal ≤ now.universal) : timing.Room now d where
  back    := h.back
  ahead _ := h.ahead.elim fun _ hb => exists_add h.interval ho hle hb

-- Moreover, a thread can sleep as long as it is told to.
structure Fits (timing : Timing) (now : Instant) : Prop extends timing.Roomy now where
  poll  : timing.pollInterval ≤ Scheduler.longestSleep
  delay : timing.startDelay ≤ Scheduler.longestSleep

end Timing

theorem Halt.exists_ok_iff {α : Type} {x : Except Halt α} :
    (∃ a, x = .ok a) ↔ (∀ f, x ≠ .error (.fault f)) ∧ x ≠ .error .exit := by
  rcases x with (f | _) | a <;> simp

namespace Job

-- A job that knows nothing of offsets.
structure Local (j : Job) : Prop where
  sound : ∀ x ∈ j.schedules, x.Sound
  next  : ∀ d, j.next = some d → d.offset = none
  last  : ∀ b, j.last = some b → b.offset = none

theorem Restarted.local (hr : j.Restarted b j') (h : j.Local) (hb : b.offset = none) :
    j'.Local where
  sound     := hr.schedules ▸ h.sound
  next d hd := (hr.next d hd).offset.trans hb
  last _ hc := Option.some.inj (hr.last.symm.trans hc) ▸ hb

-- A run that cannot be followed by another counts, and is reported as failed; the job stays due.
theorem runDue_of_error {f : Fault} (due : Instant)
    (hb : now.add timing.smallestInterval = .error f) :
    j.runDue timing now due = ({ j with runCount := j.runCount + 1 },
      [.running j.name due, .called j.bodyName, .failed j.name],
      .ok ⟨j.name, .failed, due, j.next, some f.message⟩) := by
  rw [runDue, run, restart, hb, Except.error_bind]
  rfl

theorem due_runDue {h : Handled} (hr : (j.runDue timing now due).2.2 = .ok h) : h.due = due := by
  rcases j.runDue_reports timing now due with ⟨_, he, hdue, -⟩ | ⟨he, -⟩
  · cases he.symm.trans hr
    exact hdue
  · cases he.symm.trans hr

theorem due_miss {h : Handled} (hm : (j.miss timing due).2.2 = .ok h) : h.due = due := by
  rw [miss] at hm
  split at hm <;> cases hm
  rfl

theorem Local.handle (h : j.Local) (timing : Timing) (hnow : now.offset = none) :
    (j.handle timing now).1.Local := by
  have hl := looked_handle timing now j
  generalize j.handle timing now = x at hl
  cases hl
  case idle  => exact h
  case fault => exact h
  case run due oldest _ _ _ _ =>
    cases hb : now.add timing.smallestInterval
    case error f =>
      rw [runDue_of_error due hb]
      exact ⟨h.sound, h.next, h.last⟩
    case ok b =>
      have hr := (j.runDue_restarted due h.sound hb).1
      exact hr.local h <| (universal_of_add hb).2.trans hnow
  case miss due oldest hd _ _ _ =>
    cases hb : due.add timing.smallestInterval
    case error f =>
      rw [miss_of_error hb]
      exact h
    case ok b =>
      obtain ⟨handled, -, hr, -⟩ := j.miss_restarted h.sound hb
      exact hr.local h <| (universal_of_add hb).2.trans <| h.next due hd

theorem Local.recompute (h : j.Local) (hnow : now.offset = none) :
    ∃ j', j.recompute now = .ok j' ∧ j'.Local := by
  have ho : (j.last.getD now).offset = none := by
    cases hl : j.last
    case none   => exact hnow
    case some b => exact h.last b hl
  obtain ⟨x, hx, hr⟩ := earliest_reaches h.sound (j.last.getD now)
  refine ⟨{ j with next := x }, ?_, h.sound, fun d hd => (hr d hd).offset.trans ho, h.last⟩
  rw [Job.recompute, hx, Except.ok_bind]

-- The occurrence of a job that is due.
def due? (now : Instant) (j : Job) : Option Instant :=
  j.next.filter fun d => d.universal ≤ now.universal

theorem due?_eq_some_iff : j.due? now = some d ↔ j.next = some d ∧ d.universal ≤ now.universal := by
  rw [due?, Option.filter_eq_some_iff, decide_eq_true_iff]

theorem due?_eq_none (h : ∀ d, j.next = some d → now.before d = .ok true) : j.due? now = none := by
  refine Option.eq_none_iff_forall_ne_some.mpr fun d hd => ?_
  obtain ⟨hd, hle⟩ := due?_eq_some_iff.mp hd
  exact absurd hle <| Int.not_le.mpr (earlier_iff.mp <| h d hd).2

theorem due?_of_before (hd : j.next = some due) (h : now.before due = .ok false) :
    j.due? now = some due :=
  due?_eq_some_iff.mpr ⟨hd, (before_eq_ok_false.mp h).2⟩

-- What is reported of a job is the occurrence that is due.
theorem handle_due {r : Option Handled} (hr : (j.handle timing now).2.2 = .ok r) :
    r.map (·.due) = j.due? now := by
  have hl := looked_handle timing now j
  generalize j.handle timing now = x at hl hr
  cases hl
  case idle he =>
    cases hr
    exact (due?_eq_none he).symm
  case fault => cases hr
  case run due oldest hd hbefore _ _ =>
    obtain ⟨handled, hrun, rfl⟩ := Except.map_eq_ok_iff.mp hr
    rw [due?_of_before hd hbefore, Option.map_some, due_runDue hrun]
  case miss due oldest hd hbefore _ _ =>
    obtain ⟨handled, hm, rfl⟩ := Except.map_eq_ok_iff.mp hr
    rw [due?_of_before hd hbefore, Option.map_some, due_miss hm]

-- Looking at a job ends with a fault only if its instant cannot be compared with the clock, or if
-- the calendar has no room for what is due.
theorem handle_faultless_iff (h : ∀ x ∈ j.schedules, x.Sound) :
    (∀ f, (j.handle timing now).2.2 ≠ .error (.fault f)) ↔
      ∀ d, j.next = some d →
        now.sameKind d ∧ (d.universal ≤ now.universal → timing.Room now d) := by
  have hl := looked_handle timing now j
  generalize j.handle timing now = x at hl
  cases hl
  case idle he =>
    refine iff_of_true (by simp) fun d hd => ?_
    obtain ⟨hk, hlt⟩ := earlier_iff.mp <| he d hd
    exact ⟨hk, fun hle => absurd hlt <| Int.not_lt.mpr hle⟩
  case fault due f hd hf =>
    refine iff_of_false (fun hall => hall f rfl) fun hall => ?_
    obtain ⟨hk, hroom⟩ := hall due hd
    rcases hf with hf | ⟨hbefore, hf⟩
    · rw [before, if_pos hk] at hf
      cases hf
    · obtain ⟨oldest, ho⟩ := (hroom (before_eq_ok_false.mp hbefore).2).back
      cases ho.symm.trans hf
  case run due oldest hd hbefore ho hlt =>
    refine iff_of_true (fun f => ?_) fun d hd' => ?_
    · rcases j.runDue_reports timing now due with ⟨_, he, -⟩ | ⟨he, -⟩ <;> simp [he, Except.map]
    · cases hd.symm.trans hd'
      refine ⟨(before_eq_ok_false.mp hbefore).1, fun _ => ⟨⟨oldest, ho⟩, fun hmissed => ?_⟩⟩
      obtain ⟨oldest', ho', -, hle⟩ := hmissed
      cases ho.symm.trans ho'
      exact absurd hlt <| Int.not_lt.mpr hle
  case miss due oldest hd hbefore ho hle =>
    obtain ⟨hk, hle'⟩ := before_eq_ok_false.mp hbefore
    have hmissed : timing.Missed due now := by
      refine ⟨oldest, ho, ?_, hle⟩
      rwa [Instant.sameKind, (universal_of_add ho).2]
    cases hb : due.add timing.smallestInterval
    case error f =>
      rw [miss_of_error hb]
      refine iff_of_false (fun hall => hall f rfl) fun hall => ?_
      obtain ⟨b, hb'⟩ := ((hall due hd).2 hle').ahead hmissed
      cases hb.symm.trans hb'
    case ok b =>
      obtain ⟨handled, hm, -⟩ := j.miss_restarted h hb
      rw [hm]
      refine iff_of_true (by simp [Except.map]) fun d hd' => ?_
      cases hd.symm.trans hd'
      exact ⟨hk, fun _ => ⟨⟨oldest, ho⟩, fun _ => ⟨b, hb⟩⟩⟩

theorem handle_ne_exit (h : j.Tame) (timing : Timing) (now : Instant) :
    (j.handle timing now).2.2 ≠ .error .exit :=
  fun he => h _ (exits_of_handle he).1

theorem handle_answers_iff (h : ∀ x ∈ j.schedules, x.Sound) (ht : j.Tame) :
    (∃ r, (j.handle timing now).2.2 = .ok r) ↔
      ∀ d, j.next = some d →
        now.sameKind d ∧ (d.universal ≤ now.universal → timing.Room now d) := by
  rw [← handle_faultless_iff h, Halt.exists_ok_iff, and_iff_left <| handle_ne_exit ht timing now]

-- Where the instant of a job can be compared with the clock, it is only of what is due.
theorem forall_next_room_iff (hk : ∀ d, j.next = some d → now.sameKind d) :
    (∀ d, j.next = some d → now.sameKind d ∧ (d.universal ≤ now.universal → timing.Room now d)) ↔
      ∀ d, j.due? now = some d → timing.Room now d := by
  constructor
  · intro hall d hd
    obtain ⟨hd, hle⟩ := due?_eq_some_iff.mp hd
    exact (hall d hd).2 hle
  · intro hroom d hd
    exact ⟨hk d hd, fun hle => hroom d <| due?_eq_some_iff.mpr ⟨hd, hle⟩⟩

theorem Local.sameKind (h : j.Local) (hnow : now.offset = none) (hd : j.next = some d) :
    now.sameKind d := by
  rw [Instant.sameKind, hnow, h.next d hd, beq_self_eq_true]

end Job

namespace Scheduler

variable {s s' s'' : Scheduler}

-- A scheduler of jobs that know nothing of offsets, none of which is registered twice.
structure Local (s : Scheduler) : Prop where
  jobs  : ∀ j ∈ s.jobs, j.Local
  nodup : s.registered.Nodup

theorem local_of_made (hs : ∀ j ∈ s.jobs, ∀ x ∈ j.schedules, x.Made)
    (hd : ∀ j ∈ s.jobs, ∀ d, j.next = some d ∨ j.last = some d → d.offset = none)
    (hr : s.registered.Nodup) : s.Local where
  jobs j hj := ⟨fun x hx => (hs j hj x hx).sound, fun d hn => hd j hj d <| .inl hn,
    fun d hl => hd j hj d <| .inr hl⟩
  nodup := hr

-- The occurrence of the job at a place that is due.
def dueOf (now : Instant) (s : Scheduler) (i : Nat) : Option Instant :=
  s.jobs[i]?.bind (Job.due? now)

theorem dueOf_eq (hj : s.jobs[i]? = some j) : s.dueOf now i = j.due? now := by
  rw [dueOf, hj, Option.bind_some]

theorem Local.job (h : s.Local) (hj : s.jobs[i]? = some j) : j.Local :=
  h.jobs j <| List.mem_of_getElem? hj

theorem Local.setJob (h : s.Local) (i : Nat) (hj : j.Local) : (s.setJob i j).Local where
  jobs q hq := by
    rcases List.mem_or_eq_of_mem_set hq with hq | rfl
    · exact h.jobs q hq
    · exact hj
  nodup := h.nodup

theorem Local.dueOf_offset (h : s.Local) (hd : s.dueOf now i = some d) :
    d.offset = none ∧ d.universal ≤ now.universal := by
  obtain ⟨j, hj, hd⟩ := Option.bind_eq_some_iff.mp hd
  obtain ⟨hd, hle⟩ := Job.due?_eq_some_iff.mp hd
  exact ⟨(h.job hj).next d hd, hle⟩

theorem Local.room (h : s.Local) (hnow : now.offset = none) (hr : timing.Roomy now)
    (hd : s.dueOf now i = some d) : timing.Room now d :=
  have ⟨ho, hle⟩ := h.dueOf_offset hd
  hr.room (ho.trans hnow.symm) hle

-- What a round answers are the occurrences that are due.
theorem tickOver_due {results : List Handled} (hn : is.Nodup)
    (hr : (tickOver now is s).2.2 = .ok results) :
    results.map (·.due) = is.filterMap (s.dueOf now) := by
  have hall := (tickOver_answers_iff hn).mp ⟨results, hr⟩
  rw [tickOver_eq hn hall] at hr
  cases hr
  rw [List.map_filterMap]
  refine List.filterMap_congr fun i hi => ?_
  cases hj : s.jobs[i]?
  case none => simp [answerOf_eq_none hj, dueOf, hj]
  case some j =>
    obtain ⟨r, hr⟩ := (answers_iff hj).mp (hall i hi)
    rw [answerOf_eq hj hr, dueOf_eq hj]
    exact Job.handle_due hr

section Comparable

variable (hs : ∀ j ∈ s.jobs, ∀ x ∈ j.schedules, x.Sound)
variable (hk : ∀ i ∈ is, ∀ d, s.nextOf i = some d → now.sameKind d)

include hs hk

-- Where all instants can be compared, a round answers if and only if the calendar has room for
-- whatever is due.
theorem tickOver_answers (ht : ∀ i ∈ is, s.TameAt i) (hn : is.Nodup) :
    (∃ results, (tickOver now is s).2.2 = .ok results) ↔
      ∀ i ∈ is, ∀ d, s.dueOf now i = some d → s.timing.Room now d := by
  rw [tickOver_answers_iff hn]
  refine forall₂_congr fun i hi => ?_
  cases hj : s.jobs[i]?
  case none => simp [Answers, dueOf, hj]
  case some j =>
    rw [answers_iff hj, dueOf_eq hj,
      Job.handle_answers_iff (hs j <| List.mem_of_getElem? hj) (ht i hi j hj)]
    exact Job.forall_next_room_iff fun d hd => hk i hi d <| (nextOf_eq hj).trans hd

-- If it has, no round ends with a fault, even if a body exits.
theorem tickOver_faultless (hn : is.Nodup)
    (hr : ∀ i ∈ is, ∀ d, s.dueOf now i = some d → s.timing.Room now d) (f : Fault) :
    (tickOver now is s).2.2 ≠ .error (.fault f) := by
  refine tickOver_ne_fault hn (fun i hi j hj => ?_) f
  rw [Job.handle_faultless_iff (hs j <| List.mem_of_getElem? hj),
    Job.forall_next_room_iff fun d hd => hk i hi d <| (nextOf_eq hj).trans hd, ← dueOf_eq hj]
  exact hr i hi

end Comparable

section Round

variable (hnow : now.offset = none)

include hnow

theorem Local.tickOver (h : s.Local) (is : List Nat) : (tickOver now is s).1.Local := by
  induction is generalizing s
  case nil => exact h
  case cons i is hi =>
    rw [Scheduler.tickOver]
    cases hj : s.jobs[i]?
    case none => exact hi h
    case some j =>
      have hj' := (h.job hj).handle s.timing hnow
      dsimp only
      generalize j.handle s.timing now = looked at hj'
      obtain ⟨j', notices, r⟩ := looked
      have hs' := h.setJob i hj'
      cases r
      case error => exact hs'
      case ok    => exact hi hs'

theorem Local.kind (h : s.Local) (i : Nat) (hd : s.nextOf i = some d) : now.sameKind d := by
  obtain ⟨j, hj, hd⟩ := Option.bind_eq_some_iff.mp hd
  exact (h.job hj).sameKind hnow hd

theorem Local.tickOver_answers (h : s.Local) (ht : ∀ i ∈ is, s.TameAt i) (hn : is.Nodup) :
    (∃ results, (Scheduler.tickOver now is s).2.2 = .ok results) ↔
      ∀ i ∈ is, ∀ d, s.dueOf now i = some d → s.timing.Room now d :=
  Scheduler.tickOver_answers (fun j hj => (h.jobs j hj).sound) (fun i _ _ => h.kind hnow i) ht hn

end Round

end Scheduler

end Cron
