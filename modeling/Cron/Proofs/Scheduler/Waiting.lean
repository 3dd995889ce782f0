import Cron.Proofs.Scheduler.Progress
import Cron.Scheduler.Thread

-- How long a scheduler waits, and what holds when its thread goes to sleep.

namespace Cron

open Instant

variable {now d : Instant} {js : List Job} {j : Job} {w m micros bound : Int}

theorem Instant.since_eq_ok_iff {a b : Instant} {n : Int} :
    a.since b = .ok n ↔ a.sameKind b ∧ a.universal - b.universal = n := by
  rw [since]
  split <;> simp_all

namespace Scheduler

variable {s s' : Scheduler} {thread : Thread} {notice : Notice}

section Wait

theorem waitOver_cons_of_none (h : j.next = none) :
    waitOver now w (j :: js) = waitOver now w js := by
  rw [waitOver, h]

theorem waitOver_cons_of_some (h : j.next = some d) :
    waitOver now w (j :: js) = (d.since now).bind fun ahead => waitOver now (min w ahead) js := by
  rw [waitOver, h]
  rfl

-- The least of a wait and the times to the next occurrences of some jobs.
structure Least (now : Instant) (w : Int) (js : List Job) (m : Int) : Prop where
  kind   : ∀ j ∈ js, ∀ d, j.next = some d → d.sameKind now
  le_iff : ∀ bound, bound ≤ m ↔
    bound ≤ w ∧ ∀ j ∈ js, ∀ d, j.next = some d → bound ≤ d.universal - now.universal

-- By induction on the jobs.
theorem least_of_waitOver (h : waitOver now w js = .ok m) : Least now w js m := by
  induction js generalizing w
  case nil =>
    cases h
    exact ⟨nofun, fun bound => by simp⟩
  case cons j js hi =>
    cases hd : j.next
    case none =>
      rw [waitOver_cons_of_none hd] at h
      have hl := hi h
      refine ⟨List.forall_mem_cons.mpr ⟨by simp [hd], hl.kind⟩, fun bound => ?_⟩
      simp [hl.le_iff bound, hd]
    case some d =>
      rw [waitOver_cons_of_some hd] at h
      obtain ⟨ahead, ha, h⟩ := Except.bind_eq_ok_iff.mp h
      obtain ⟨hs, rfl⟩ := since_eq_ok_iff.mp ha
      have hl := hi h
      refine ⟨List.forall_mem_cons.mpr ⟨by simpa [hd] using hs, hl.kind⟩, fun bound => ?_⟩
      simp only [hl.le_iff bound, List.forall_mem_cons, hd, Option.some.injEq, forall_eq',
        le_inf_iff, and_assoc]

theorem exists_waitOver (h : ∀ j ∈ js, ∀ d, j.next = some d → d.sameKind now) :
    ∃ m, waitOver now w js = .ok m := by
  induction js generalizing w
  case nil => exact ⟨w, rfl⟩
  case cons j js hi =>
    obtain ⟨hj, hjs⟩ := List.forall_mem_cons.mp h
    cases hd : j.next
    case none =>
      rw [waitOver_cons_of_none hd]
      exact hi hjs
    case some d =>
      rw [waitOver_cons_of_some hd, since_eq_ok_iff.mpr ⟨hj d hd, rfl⟩]
      exact hi hjs

theorem exists_wait (h : ∀ j ∈ s.handledJobs, ∀ d, j.next = some d → d.sameKind now) :
    ∃ micros, s.wait now = .ok micros ∧ micros ≤ max 0 s.timing.pollInterval := by
  obtain ⟨m, hm⟩ := exists_waitOver (w := s.timing.pollInterval) h
  have hle := ((least_of_waitOver hm).le_iff m |>.mp <| Int.le_refl m).1
  refine ⟨max 0 m, ?_, by omega⟩
  rw [wait, hm]
  rfl

end Wait

-- No job that is registered is due.
def Rested (now : Instant) (s : Scheduler) : Prop :=
  ∀ i ∈ s.registered, ∀ d, s.nextOf i = some d → now.Earlier d

theorem mem_handledJobs {i : Nat} (hi : i ∈ s.registered) (hj : s.jobs[i]? = some j) :
    j ∈ s.handledJobs :=
  List.mem_filterMap.mpr ⟨i, hi, hj⟩

theorem rested_of_wait (h : s.wait now = .ok micros) (hm : 0 < micros) : s.Rested now := by
  intro i hi d hd
  obtain ⟨j, hj, hd⟩ := Option.bind_eq_some_iff.mp hd
  obtain ⟨m, hm', rfl⟩ := Except.map_eq_ok_iff.mp h
  have hl := least_of_waitOver hm'
  have hmem := mem_handledJobs hi hj
  have hk := hl.kind j hmem d hd
  have hle := ((hl.le_iff 1).mp <| by omega).2 j hmem d hd
  rw [sameKind, beq_iff_eq] at hk
  rw [earlier_iff, sameKind, beq_iff_eq]
  exact ⟨hk.symm, by omega⟩

theorem rested_of_sleep (h : (s.sleep micros .asleep notice).1.thread = .asleep)
    (hs : s.Rested now) : (s.sleep micros .asleep notice).1.Rested now := by
  rw [sleep] at h ⊢
  split
  · rw [if_pos ‹_›] at h
    cases h
  · exact hs

section Settling

variable {f : Fault} {e : Halt} {after : Scheduler} {notices : List Notice}
variable {results : List Handled}

-- A round that ends early leaves jobs as they are.

@[simp]
theorem thread_halt (s : Scheduler) (e : Halt) : (s.halt e).1.thread = .off := by
  cases e <;> rfl

@[simp]
theorem timing_halt (s : Scheduler) (e : Halt) : (s.halt e).1.timing = s.timing := by
  cases e <;> rfl

@[simp]
theorem jobs_halt (s : Scheduler) (e : Halt) : (s.halt e).1.jobs = s.jobs := by
  cases e <;> rfl

@[simp]
theorem registered_halt (s : Scheduler) (e : Halt) : (s.halt e).1.registered = s.registered := by
  cases e <;> rfl

theorem settle_of_unknown (h : s.wait now = .error f) : s.settle now = s.stop := by
  rw [settle, h]

theorem settle_of_wait (h : s.wait now = .ok micros) (hm : 0 < micros) :
    s.settle now = s.sleep micros .asleep (.waiting micros) := by
  rw [settle, h]
  exact if_pos hm

theorem settle_of_halt (h : s.wait now = .ok micros) (hm : ¬0 < micros)
    (ht : s.tick now = (after, notices, .error e)) :
    s.settle now = ((after.halt e).1, notices ++ (after.halt e).2) := by
  rw [settle, h]
  simp only [if_neg hm, ht]

theorem settle_of_tick (h : s.wait now = .ok micros) (hm : ¬0 < micros)
    (ht : s.tick now = (after, notices, .ok results)) :
    s.settle now =
      if after.backlog now < s.backlog now then
        ((after.settle now).1, notices ++ (after.settle now).2)
      else ({ after with thread := .busy }, notices) := by
  rw [settle, h]
  simp only [if_neg hm, ht]

-- A thread that has handled what there was goes to sleep only when nothing is due. By induction on
-- how far the jobs are behind.
theorem rested_of_settle {s : Scheduler} (h : (s.settle now).1.thread = .asleep) :
    (s.settle now).1.Rested now := by
  cases hw : s.wait now
  case error f =>
    rw [settle_of_unknown hw] at h
    cases h
  case ok micros =>
    by_cases hm : 0 < micros
    case pos =>
      rw [settle_of_wait hw hm] at h ⊢
      exact rested_of_sleep h <| rested_of_wait hw hm
    case neg =>
      rcases ht : s.tick now with ⟨after, notices, e | results⟩
      · rw [settle_of_halt hw hm ht, thread_halt] at h
        cases h
      · rw [settle_of_tick hw hm ht] at h ⊢
        split at h
        case isTrue hlt =>
          rw [if_pos hlt]
          exact rested_of_settle h
        case isFalse => cases h
termination_by s.backlog now

theorem rested_of_wake (h : (s.wake now).1.thread = .asleep) : (s.wake now).1.Rested now := by
  rw [wake] at h ⊢
  by_cases hs : s.thread = .asleep
  case pos =>
    simp only [if_pos hs] at h ⊢
    rcases ht : s.tick now with ⟨after, notices, e | results⟩
    · simp only [ht, thread_halt] at h
      cases h
    · rw [ht] at h
      exact rested_of_settle h
  case neg =>
    rw [if_neg hs] at h
    exact absurd h hs

theorem rested_of_start (hoff : s.thread = .off) (h : (s.start now).1.thread = .asleep) :
    (s.start now).1.Rested now := by
  rw [start, if_pos hoff, launch] at h ⊢
  split at h
  case isTrue =>
    -- During the start delay the thread is not yet asleep.
    rw [sleep] at h
    split at h <;> cases h
  case isFalse hdelay =>
    rw [if_neg hdelay]
    generalize recomputeOver now _ _ = x at h ⊢
    rcases x with ⟨after, f | _⟩
    · cases h
    · exact rested_of_settle h

end Settling

end Scheduler

end Cron
