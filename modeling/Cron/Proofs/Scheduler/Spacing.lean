import Cron.Proofs.Scheduler.Progress
import Cron.Proofs.Scheduler.Runs

namespace Cron

open Instant

-- What a scheduler may be asked to do. A thread that it wakes or starts does its work at the same
-- instant, until it sleeps.
inductive Operation
  | add (clock : Instant) (i : Nat) (from? : Option Instant)
  | addAndStart (clock : Instant) (i : Nat) (from? : Option Instant)
  | remove (i : Nat)
  | clear
  | recompute (i : Nat) (start : Instant)
  | tick (now : Instant)
  | start (clock : Instant)
  | shutdown

-- The instant at which an operation may run bodies.
def Operation.clock? : Operation → Option Instant
  | .add clock _ _ | .addAndStart clock _ _ | .tick clock | .start clock => some clock
  | .remove _ | .clear | .recompute _ _ | .shutdown => none

namespace Scheduler

variable {s s' : Scheduler} {x : Operation} {xs ys : List Operation} {i : Nat} {j : Job}

def after (s : Scheduler) : Operation → Scheduler
  | .add clock i from? => (s.register clock i from?).1
  | .addAndStart clock i from? => (s.registerAndStart clock i from?).1
  | .remove i => s.unregister i
  | .clear => s.clear
  | .recompute i start => (recomputeOver start [i] s).1
  | .tick now => (s.tick now).1
  | .start clock => (s.start clock).1
  | .shutdown => s.shutdown

def afterAll (s : Scheduler) (xs : List Operation) : Scheduler := xs.foldl after s

def lastOf (s : Scheduler) (i : Nat) : Option Instant := s.jobs[i]?.bind Job.last

-- How often the body of a job has been run.
def runsOf (s : Scheduler) (i : Nat) : Nat := s.jobs[i]?.elim 0 Job.runCount

-- The instants at which operations run the body of a job, each as often as it is run.
def executions (i : Nat) : Scheduler → List Operation → List Instant
  | _, [] => []
  | s, x :: xs =>
    (x.clock?.toList.flatMap fun clock =>
      List.replicate ((s.after x).runsOf i - s.runsOf i) clock) ++ executions i (s.after x) xs

section Views

theorem nextOf_eq (h : s.jobs[i]? = some j) : s.nextOf i = j.next := by
  rw [nextOf, h, Option.bind_some]

theorem lastOf_eq (h : s.jobs[i]? = some j) : s.lastOf i = j.last := by
  rw [lastOf, h, Option.bind_some]

theorem runsOf_eq (h : s.jobs[i]? = some j) : s.runsOf i = j.runCount := by
  rw [runsOf, h, Option.elim_some]

end Views

-- Wherever an operation may run bodies, an interval later the calendar has not ended.
def InCalendar (interval : Int) (xs : List Operation) : Prop :=
  ∀ x ∈ xs, ∀ clock, x.clock? = some clock → ∃ b, clock.add interval = .ok b

theorem works_after (h : s.Tidy) (hi : 0 ≤ s.timing.smallestInterval)
    (hc : ∀ clock, x.clock? = some clock → ∃ b, clock.add s.timing.smallestInterval = .ok b) :
    Works x.clock? s (s.after x) := by
  have hready (clock) (hx : x.clock? = some clock) : s.Ready clock := ⟨h, hi, hc clock hx⟩
  cases x
  case add clock i from?         => exact works_register (hready clock rfl) i from?
  case addAndStart clock i from? => exact works_registerAndStart (hready clock rfl) i from?
  case remove                    => exact works_of_jobs_eq h rfl rfl
  case clear                     => exact works_of_jobs_eq h rfl rfl
  case recompute i start         => exact works_recomputeOver h [i]
  case tick now                  => exact works_tick (hready now rfl)
  case start clock               => exact works_start (hready clock rfl)
  case shutdown                  => exact works_of_jobs_eq h rfl rfl

-- A job runs when it has counted a run.
theorem Works.runs (h : Works x.clock? s (s.after x)) (hj : s.jobs[i]? = some j) :
    ∃ j', (s.after x).jobs[i]? = some j' ∧
      j.Runs s.timing.smallestInterval (executions i s [x]) j' := by
  obtain ⟨j', ts, hj', hr, ht⟩ := h.jobs i j hj
  refine ⟨j', hj', ?_⟩
  have hcount : j'.runCount - j.runCount = ts.length := by
    have := hr.count
    omega
  rw [executions, executions, List.append_nil, runsOf_eq hj', runsOf_eq hj, hcount]
  cases hx : x.clock?
  case none =>
    have : ts = [] := List.eq_nil_iff_forall_not_mem.mpr fun t hm => by cases hx ▸ ht t hm
    simpa [this] using hr
  case some clock =>
    have : ts = List.replicate ts.length clock :=
      List.eq_replicate_of_mem fun t hm => Option.some.inj <| (ht t hm).symm.trans hx
    simpa [← this] using hr

-- What becomes of a scheduler while it is asked for several things.
structure Goes (s : Scheduler) (xs : List Operation) (s' : Scheduler) : Prop where
  timing : s'.timing = s.timing
  tidy   : s'.Tidy
  jobs   : ∀ (i : Nat) (j : Job), s.jobs[i]? = some j → ∃ j', s'.jobs[i]? = some j' ∧
    j.Runs s.timing.smallestInterval (executions i s xs) j'

-- By induction on the operations.
theorem goes_afterAll (h : s.Tidy) (hi : 0 ≤ s.timing.smallestInterval)
    (hc : InCalendar s.timing.smallestInterval xs) : Goes s xs (s.afterAll xs) := by
  induction xs generalizing s
  case nil => exact ⟨rfl, h, fun i j hj => ⟨j, hj, .refl <| h j <| List.mem_of_getElem? hj⟩⟩
  case cons x xs hrest =>
    have ⟨hx, hxs⟩ := List.forall_mem_cons.mp hc
    have hw := works_after h hi hx
    have hg := hrest hw.tidy (hw.timing ▸ hi) (hw.timing ▸ hxs)
    refine ⟨hg.timing.trans hw.timing, hg.tidy, fun i j hj => ?_⟩
    obtain ⟨j', hj', hr⟩ := hw.runs hj
    obtain ⟨j'', hj'', hr'⟩ := hg.jobs i j' hj'
    rw [hw.timing] at hr'
    refine ⟨j'', hj'', ?_⟩
    rw [executions, executions, List.append_nil] at hr
    exact hr.append hr'

end Scheduler

open Scheduler Schedule

section Spacing

variable {s : Scheduler} {earlier later : List Operation} {i : Nat}

-- Whatever a scheduler is asked for, and whether bodies fail or not: the executions of a job that
-- has not run before lie a smallest interval apart at least. It is next due at `last` or later, and
-- `last` never goes back.
theorem executions_are_spaced (hi : 0 ≤ s.timing.smallestInterval)
    (hs : ∀ j ∈ s.jobs, ∀ x ∈ j.schedules, x.Made) (hl : ∀ j ∈ s.jobs, j.last = none)
    (hc : InCalendar s.timing.smallestInterval (earlier ++ later)) (hlt : i < s.jobs.length) :
    let s₁ := s.afterAll earlier
    let s₂ := s.afterAll (earlier ++ later)
    (∀ b, s₁.lastOf i = some b → ∃ b', s₂.lastOf i = some b' ∧ b.NotLater b') ∧
    (∀ b d, s₂.lastOf i = some b → s₂.nextOf i = some d → b.NotLater d) ∧
    s₂.runsOf i = s.runsOf i + (executions i s (earlier ++ later)).length ∧
    (executions i s (earlier ++ later)).Pairwise fun now now' =>
      ∃ b, now.add s.timing.smallestInterval = .ok b ∧ b.NotLater now' := by
  intro s₁ s₂
  have htidy : s.Tidy := fun j hj => ⟨fun x hx => (hs j hj x hx).sound, fun b d hb => by
    rw [hl j hj] at hb
    cases hb⟩
  have hc₁ : InCalendar s.timing.smallestInterval earlier := fun x hx =>
    hc x <| List.mem_append_left _ hx
  have hc₂ : InCalendar s.timing.smallestInterval later := fun x hx =>
    hc x <| List.mem_append_right _ hx
  have hj : s.jobs[i]? = some s.jobs[i] := List.getElem?_eq_getElem hlt
  have hg₁ := goes_afterAll htidy hi hc₁
  obtain ⟨j₁, hj₁, -⟩ := hg₁.jobs i _ hj
  -- From the middle on, for `last`; and from the beginning, for the executions.
  have hg₂ := goes_afterAll hg₁.tidy (hg₁.timing ▸ hi) (hg₁.timing ▸ hc₂)
  have he : s₁.afterAll later = s₂ := List.foldl_append.symm
  rw [he] at hg₂
  obtain ⟨j₂, hj₂, hr₂⟩ := hg₂.jobs i j₁ hj₁
  obtain ⟨j, hj', hr⟩ := (goes_afterAll htidy hi hc).jobs i _ hj
  cases hj₂.symm.trans hj'
  rw [lastOf_eq hj₁, lastOf_eq hj₂, nextOf_eq hj₂, runsOf_eq hj₂, runsOf_eq hj]
  exact ⟨hr₂.grows, hr.tidy.ordered, hr.count, hr.spaced⟩

-- A job that fails is taken out after its first run and put back with a reference before it.
theorem executions_are_spaced_of_failing_job :
    let d : Date := ⟨2024, 1, 15, by decide, by decide, by decide, by decide, by decide, by decide⟩
    let seven : Instant := ⟨d, 7 * hourMicros, none, by decide⟩
    let eight : Instant := ⟨d, 8 * hourMicros, none, by decide⟩
    let nine : Instant := ⟨d, 9 * hourMicros, none, by decide⟩
    let job : Job :=
      Job.new "a" (.function "backup") .unix [unrestricted ⟨.unix, 2024, 100, 900⟩]
        fun _ => .raises "no"
    let s : Scheduler := idle .standard [job]
    let earlier : List Operation := [.add eight 0 none, .tick eight]
    let later : List Operation := [.remove 0, .add nine 0 (some seven), .tick nine]
    let s₁ := s.afterAll earlier
    let s₂ := s.afterAll (earlier ++ later)
    executions 0 s (earlier ++ later) = [eight, nine] ∧
    (∀ b, s₁.lastOf 0 = some b → ∃ b', s₂.lastOf 0 = some b' ∧ b.NotLater b') ∧
    (∀ b d, s₂.lastOf 0 = some b → s₂.nextOf 0 = some d → b.NotLater d) ∧
    s₂.runsOf 0 = s.runsOf 0 + (executions 0 s (earlier ++ later)).length ∧
    (executions 0 s (earlier ++ later)).Pairwise fun now now' =>
      ∃ b, now.add s.timing.smallestInterval = .ok b ∧ b.NotLater now' := by
  intro d seven eight nine job s earlier later
  have hmade : ∀ j ∈ s.jobs, ∀ x ∈ j.schedules, x.Made := by
    simp only [s, job, idle, Job.new, List.forall_mem_singleton]
    exact ⟨⟨.unix, 2024, 100, 900⟩, none, _, rfl, [], rfl⟩
  have height : ∃ b, eight.add s.timing.smallestInterval = .ok b :=
    Except.exists_eq_ok_of_isSome (by decide +kernel)
  have hnine : ∃ b, nine.add s.timing.smallestInterval = .ok b :=
    Except.exists_eq_ok_of_isSome (by decide +kernel)
  have hc : InCalendar s.timing.smallestInterval (earlier ++ later) := by
    simp [InCalendar, earlier, later, Operation.clock?, height, hnine]
  exact ⟨by decide +kernel,
    executions_are_spaced (by decide) hmade (by simp [s, job, idle, Job.new]) hc (by decide)⟩

end Spacing

end Cron
