import Cron.Proofs.Scheduler.Waiting

-- When the bodies of jobs are run. Whatever a scheduler is made to do at an instant, and its thread
-- does in turn, a job runs only at or after `last`, and then `last` lies an interval ahead.

namespace Cron

variable {t b d u now clock due : Instant} {k interval : Int} {timing : Timing} {j j' j'' : Job}
variable {ts ts' : List Instant} {i : Nat} {is : List Nat}

namespace Instant

-- At the same time as another instant, or earlier.
def NotLater (a b : Instant) : Prop := b.before a = .ok false

theorem notLater_iff : t.NotLater u ↔ t.offset.isSome = u.offset.isSome ∧
    t.universal ≤ u.universal := by
  rw [NotLater, before_eq_ok_false, sameKind, beq_iff_eq, eq_comm]

theorem NotLater.refl (t : Instant) : t.NotLater t := notLater_iff.mpr ⟨rfl, Int.le_refl _⟩

theorem NotLater.trans (h : t.NotLater u) (h' : u.NotLater d) : t.NotLater d := by
  rw [notLater_iff] at *
  exact ⟨h.1.trans h'.1, h.2.trans h'.2⟩

theorem Reaches.notLater (h : t.Reaches d) : t.NotLater d :=
  notLater_iff.mpr ⟨by rw [h.offset], h.universal_le⟩

theorem reaches_of_add (hk : 0 ≤ k) (h : t.add k = .ok u) : t.Reaches u := by
  have ⟨ht, ho⟩ := of_ofTicks_eq_ok h
  exact ⟨by omega, ho⟩

-- Later than another instant by an interval, at least.
def Clears (interval : Int) (t u : Instant) : Prop := ∃ b, t.add interval = .ok b ∧ b.NotLater u

end Instant

open Instant

namespace Job

-- A job whose schedules are sound, and that is not due before `last`.
structure Tidy (j : Job) : Prop where
  sound   : ∀ x ∈ j.schedules, x.Sound
  ordered : ∀ b d, j.last = some b → j.next = some d → b.NotLater d

-- How a job comes from one state to another while its body is run at some instants.
structure Runs (interval : Int) (j : Job) (ts : List Instant) (j' : Job) : Prop where
  tidy   : j'.Tidy
  count  : j'.runCount = j.runCount + ts.length
  grows  : ∀ b, j.last = some b → ∃ b', j'.last = some b' ∧ b.NotLater b'
  after  : ∀ b, j.last = some b → ∀ t ∈ ts, b.NotLater t
  before : ∀ t ∈ ts, ∃ b, j'.last = some b ∧ Clears interval t b
  spaced : ts.Pairwise (Clears interval)

theorem Runs.refl (h : j.Tidy) : Runs interval j [] j where
  tidy       := h
  count      := rfl
  grows b hb := ⟨b, hb, .refl b⟩
  after      := nofun
  before     := nofun
  spaced     := .nil

theorem Runs.append (h : Runs interval j ts j') (h' : Runs interval j' ts' j'') :
    Runs interval j (ts ++ ts') j'' where
  tidy := h'.tidy
  count := by rw [h'.count, h.count, List.length_append, Nat.add_assoc]
  grows b hb := by
    obtain ⟨b', hb', hle⟩ := h.grows b hb
    obtain ⟨b'', hb'', hle'⟩ := h'.grows b' hb'
    exact ⟨b'', hb'', hle.trans hle'⟩
  after b hb t ht := by
    rcases List.mem_append.mp ht with ht | ht
    · exact h.after b hb t ht
    · obtain ⟨b', hb', hle⟩ := h.grows b hb
      exact hle.trans <| h'.after b' hb' t ht
  before t ht := by
    rcases List.mem_append.mp ht with ht | ht
    · obtain ⟨b, hb, c, hc, hle⟩ := h.before t ht
      obtain ⟨b', hb', hle'⟩ := h'.grows b hb
      exact ⟨b', hb', c, hc, hle.trans hle'⟩
    · exact h'.before t ht
  spaced := by
    refine List.pairwise_append.mpr ⟨h.spaced, h'.spaced, fun t ht t' ht' => ?_⟩
    obtain ⟨b, hb, c, hc, hle⟩ := h.before t ht
    exact ⟨c, hc, hle.trans <| h'.after b hb t' ht'⟩

-- Looking for the next occurrence.
theorem recompute_runs (h : j.Tidy) (hr : j.recompute t = .ok j') : Runs interval j [] j' := by
  obtain ⟨x, hx, hd⟩ := earliest_reaches h.sound (j.last.getD t)
  rw [recompute, hx, Except.ok_bind] at hr
  cases hr
  refine ⟨⟨h.sound, fun b d hb hx => ?_⟩, rfl, fun b hb => ⟨b, hb, .refl b⟩, by simp, by simp, .nil⟩
  cases hx
  have hd := hd d rfl
  rw [show j.last = some b from hb] at hd
  exact hd.notLater

theorem Restarted.tidy (h : j.Restarted b j') (hs : ∀ x ∈ j.schedules, x.Sound) : j'.Tidy where
  sound := h.schedules ▸ hs
  ordered c d hc hd := by
    cases h.last.symm.trans hc
    exact (h.next d hd).notLater

-- A job that is looked at runs then, if at all.
theorem handle_runs (h : j.Tidy) (hi : 0 ≤ timing.smallestInterval)
    (hb : now.add timing.smallestInterval = .ok b) :
    ∃ ts, Runs timing.smallestInterval j ts (j.handle timing now).1 ∧ ∀ t ∈ ts, t = now := by
  have hl := looked_handle timing now j
  generalize j.handle timing now = x at hl
  cases hl
  case idle  => exact ⟨[], .refl h, by simp⟩
  case fault => exact ⟨[], .refl h, by simp⟩
  case run due oldest hd hbefore _ _ =>
    obtain ⟨hr, hcount, -⟩ := j.runDue_restarted due h.sound hb
    have hlast (c) (hc : j.last = some c) : c.NotLater now := (h.ordered c due hc hd).trans hbefore
    refine ⟨[now], ⟨hr.tidy h.sound, hcount, fun c hc => ⟨b, hr.last, ?_⟩, ?_, ?_, ?_⟩, ?_⟩
    · exact (hlast c hc).trans (reaches_of_add hi hb).notLater
    · simpa using hlast
    · simpa using ⟨b, hr.last, b, hb, .refl b⟩
    · exact List.pairwise_singleton _ _
    · simp
  case miss due oldest hd _ _ _ =>
    refine ⟨[], ?_, by simp⟩
    cases hb : due.add timing.smallestInterval
    case error f =>
      rw [miss_of_error hb]
      exact .refl h
    case ok b =>
      obtain ⟨handled, -, hr, hcount, -⟩ := j.miss_restarted h.sound hb
      refine ⟨hr.tidy h.sound, hcount, fun c hc => ⟨b, hr.last, ?_⟩, by simp, by simp, .nil⟩
      exact (h.ordered c due hc hd).trans (reaches_of_add hi hb).notLater

end Job

namespace Scheduler

variable {s s' s'' : Scheduler} {clock? : Option Instant}

def Tidy (s : Scheduler) : Prop := ∀ j ∈ s.jobs, j.Tidy

-- What becomes of a scheduler that works at an instant, or at none: no body is run at another.
structure Works (clock? : Option Instant) (s s' : Scheduler) : Prop where
  timing : s'.timing = s.timing
  tidy   : s'.Tidy
  jobs   : ∀ (i : Nat) (j : Job), s.jobs[i]? = some j → ∃ (j' : Job) (ts : List Instant),
    s'.jobs[i]? = some j' ∧ j.Runs s.timing.smallestInterval ts j' ∧ ∀ t ∈ ts, clock? = some t

-- A scheduler that may be made to work at an instant: a run would not leave the calendar.
structure Ready (clock : Instant) (s : Scheduler) : Prop where
  tidy     : s.Tidy
  interval : 0 ≤ s.timing.smallestInterval
  room     : ∃ b, clock.add s.timing.smallestInterval = .ok b

-- No job is touched.
theorem works_of_jobs_eq (h : s.Tidy) (ht : s'.timing = s.timing) (hj : s'.jobs = s.jobs) :
    Works clock? s s' where
  timing := ht
  tidy j hm := h j <| hj ▸ hm
  jobs _ j hi := ⟨j, [], hj ▸ hi, .refl <| h j <| List.mem_of_getElem? hi, nofun⟩

namespace Works

theorem refl (h : s.Tidy) : Works clock? s s := works_of_jobs_eq h rfl rfl

theorem trans (h : Works clock? s s') (h' : Works clock? s' s'') : Works clock? s s'' where
  timing := h'.timing.trans h.timing
  tidy := h'.tidy
  jobs i j hi := by
    obtain ⟨j', ts, hj', hr, ht⟩ := h.jobs i j hi
    obtain ⟨j'', ts', hj'', hr', ht'⟩ := h'.jobs i j' hj'
    rw [h.timing] at hr'
    exact ⟨j'', ts ++ ts', hj'', hr.append hr', List.forall_mem_append.mpr ⟨ht, ht'⟩⟩

theorem ready (h : Works clock? s s') (hs : s.Ready clock) : s'.Ready clock where
  tidy     := h.tidy
  interval := h.timing ▸ hs.interval
  room     := h.timing ▸ hs.room

end Works

theorem works_setJob (h : s.Tidy) (hj : s.jobs[i]? = some j)
    (hr : j.Runs s.timing.smallestInterval ts j') (ht : ∀ t ∈ ts, clock? = some t) :
    Works clock? s (s.setJob i j') where
  timing := rfl
  tidy j'' hm := by
    rcases List.mem_or_eq_of_mem_set hm with hm | rfl
    · exact h j'' hm
    · exact hr.tidy
  jobs k q hk := by
    rw [getElem?_setJob hj]
    split
    case isTrue he =>
      subst he
      cases hj.symm.trans hk
      exact ⟨j', ts, rfl, hr, ht⟩
    case isFalse => exact ⟨q, [], hk, .refl <| h q <| List.mem_of_getElem? hk, by simp⟩

theorem works_recompute (h : s.Tidy) (hj : s.jobs[i]? = some j) (hr : j.recompute t = .ok j') :
    Works clock? s (s.setJob i j') :=
  works_setJob h hj (Job.recompute_runs (h j <| List.mem_of_getElem? hj) hr) nofun

-- By induction on the jobs that are left.
theorem works_recomputeOver (h : s.Tidy) (is : List Nat) :
    Works clock? s (recomputeOver now is s).1 := by
  induction is generalizing s
  case nil => exact .refl h
  case cons i is hi =>
    rw [recomputeOver]
    cases hj : s.jobs[i]?
    case none => exact hi h
    case some j =>
      dsimp only
      cases hr : j.recompute now
      case error => exact .refl h
      case ok j' =>
        have hw : Works clock? s (s.setJob i j') := works_recompute h hj hr
        exact hw.trans <| hi hw.tidy

theorem works_tickOver (h : s.Ready clock) (is : List Nat) :
    Works (some clock) s (tickOver clock is s).1 := by
  induction is generalizing s
  case nil => exact .refl h.tidy
  case cons i is hi =>
    rw [tickOver]
    cases hj : s.jobs[i]?
    case none => exact hi h
    case some j =>
      obtain ⟨b, hb⟩ := h.room
      obtain ⟨ts, hr, ht⟩ := j.handle_runs (h.tidy j <| List.mem_of_getElem? hj) h.interval hb
      have hw : Works (some clock) s (s.setJob i (j.handle s.timing clock).1) :=
        works_setJob h.tidy hj hr fun t hm => congrArg some (ht t hm).symm
      dsimp only
      generalize j.handle s.timing clock = looked at hw
      obtain ⟨j', notices, r⟩ := looked
      cases r
      case error => exact hw
      case ok    => exact hw.trans <| hi <| hw.ready h

theorem works_tick (h : s.Ready clock) : Works (some clock) s (s.tick clock).1 :=
  works_tickOver h s.registered

theorem works_sleep (h : s.Tidy) (micros : Int) (thread : Thread) (notice : Notice) :
    Works (some clock) s (s.sleep micros thread notice).1 := by
  rw [sleep]
  split <;> exact works_of_jobs_eq h rfl rfl

theorem works_halt (h : s.Tidy) (e : Halt) : Works (some clock) s (s.halt e).1 :=
  works_of_jobs_eq h (timing_halt s e) (jobs_halt s e)

-- By induction on how far the jobs are behind.
theorem works_settle {s : Scheduler} (h : s.Ready clock) :
    Works (some clock) s (s.settle clock).1 := by
  cases hwait : s.wait clock
  case error f =>
    rw [settle_of_unknown hwait]
    exact works_of_jobs_eq h.tidy rfl rfl
  case ok micros =>
    by_cases hm : 0 < micros
    case pos =>
      rw [settle_of_wait hwait hm]
      exact works_sleep h.tidy _ _ _
    case neg =>
      have hw := works_tick h
      rcases ht : s.tick clock with ⟨after, notices, e | results⟩
      · rw [ht] at hw
        rw [settle_of_halt hwait hm ht]
        exact hw.trans <| works_halt hw.tidy e
      · rw [ht] at hw
        rw [settle_of_tick hwait hm ht]
        split
        case isTrue hlt => exact hw.trans <| works_settle <| hw.ready h
        case isFalse    => exact hw.trans <| works_of_jobs_eq hw.tidy rfl rfl
termination_by s.backlog clock

theorem works_launch (h : s.Ready clock) : Works (some clock) s (s.launch clock).1 := by
  rw [launch]
  split
  case isTrue => exact works_sleep h.tidy _ _ _
  case isFalse =>
    have hw : Works (some clock) s (recomputeOver clock s.registered s).1 :=
      works_recomputeOver h.tidy _
    generalize recomputeOver clock s.registered s = x at hw
    obtain ⟨after, r⟩ := x
    cases r
    case error => exact hw.trans <| works_of_jobs_eq hw.tidy rfl rfl
    case ok    => exact hw.trans <| works_settle <| hw.ready h

theorem works_start (h : s.Ready clock) : Works (some clock) s (s.start clock).1 := by
  rw [start]
  split
  case isTrue =>
    have hw : Works (some clock) s { s with thread := .busy, status := .active } :=
      works_of_jobs_eq h.tidy rfl rfl
    exact hw.trans <| works_launch <| hw.ready h
  case isFalse => exact .refl h.tidy

theorem works_wake (h : s.Ready clock) : Works (some clock) s (s.wake clock).1 := by
  rw [wake]
  split
  case isTrue =>
    have hw := works_tick h
    generalize s.tick clock = x at hw
    obtain ⟨after, notices, r⟩ := x
    cases r
    case error e => exact hw.trans <| works_halt hw.tidy e
    case ok      => exact hw.trans <| works_settle <| hw.ready h
  case isFalse => exact .refl h.tidy

theorem works_register (h : s.Ready clock) (i : Nat) (from? : Option Instant) :
    Works (some clock) s (s.register clock i from?).1 := by
  rw [register]
  split
  case isTrue => exact .refl h.tidy
  case isFalse =>
    have hw : Works (some clock) s { s with registered := s.registered ++ [i] } :=
      works_of_jobs_eq h.tidy rfl rfl
    dsimp only
    cases hj : s.jobs[i]?
    case none => exact hw
    case some j =>
      dsimp only
      cases hr : j.recompute (from?.getD clock)
      case error => exact hw
      case ok j' =>
        have hw' := hw.trans <| works_recompute hw.tidy hj hr
        exact hw'.trans <| works_wake <| hw'.ready h

theorem works_registerAndStart (h : s.Ready clock) (i : Nat) (from? : Option Instant) :
    Works (some clock) s (s.registerAndStart clock i from?).1 := by
  have hw := works_register h i from?
  rw [registerAndStart]
  generalize s.register clock i from? = x at hw
  obtain ⟨after, notices, r⟩ := x
  cases r
  case error => exact hw
  case ok    => exact hw.trans <| works_start <| hw.ready h

end Scheduler

end Cron
