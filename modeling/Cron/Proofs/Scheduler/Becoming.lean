import Cron.Proofs.Scheduler.Handling
import Cron.Scheduler.Thread

-- What never changes of a job, or of a scheduler that only handles its jobs, and what comes of a
-- body that exits. It ends the round in which it is called, and tells nobody but by the number of
-- its runs.

namespace Cron

variable {t now due : Instant} {interval : Int} {j j' j'' : Job}

namespace Job

-- What becomes of a job: it keeps what it is given at first, and its runs are counted.
structure Becomes (j j' : Job) : Prop where
  name      : j'.name = j.name
  schedules : j'.schedules = j.schedules
  ending    : j'.ending = j.ending
  count     : j.runCount ≤ j'.runCount

section Becomes

theorem Becomes.refl (j : Job) : j.Becomes j := ⟨rfl, rfl, rfl, Nat.le_refl _⟩

theorem Becomes.trans (h : j.Becomes j') (h' : j'.Becomes j'') : j.Becomes j'' where
  name      := h'.name.trans h.name
  schedules := h'.schedules.trans h.schedules
  ending    := h'.ending.trans h.ending
  count     := h.count.trans h'.count

theorem becomes_recompute (h : j.recompute t = .ok j') : j.Becomes j' := by
  obtain ⟨x, -, h⟩ := Except.bind_eq_ok_iff.mp h
  cases h
  exact ⟨rfl, rfl, rfl, Nat.le_refl _⟩

theorem becomes_restart (h : j.restart t interval = .ok j') : j.Becomes j' := by
  obtain ⟨b, -, h⟩ := Except.bind_eq_ok_iff.mp h
  have hb := becomes_recompute h
  exact ⟨hb.name, hb.schedules, hb.ending, hb.count⟩

theorem becomes_run (j : Job) (now : Instant) (interval : Int) :
    j.Becomes (j.run now interval).1 := by
  have hcounted : j.Becomes { j with runCount := j.runCount + 1 } := ⟨rfl, rfl, rfl, Nat.le_succ _⟩
  rw [run]
  split
  case h_1   => exact hcounted
  case h_2 h => exact hcounted.trans <| becomes_restart h

theorem becomes_runDue (timing : Timing) (now due : Instant) (j : Job) :
    j.Becomes (j.runDue timing now due).1 := by
  have h := j.becomes_run now timing.smallestInterval
  rw [runDue]
  split <;> rwa [‹j.run _ _ = _›] at h

theorem becomes_miss (timing : Timing) (due : Instant) (j : Job) :
    j.Becomes (j.miss timing due).1 := by
  rw [miss]
  split
  case h_1 h => exact becomes_restart h
  case h_2   => exact .refl j

theorem becomes_handle (timing : Timing) (now : Instant) (j : Job) :
    j.Becomes (j.handle timing now).1 := by
  rw [handle]
  split
  case h_1 => exact .refl j
  case h_2 =>
    split
    case h_4 =>
      dsimp only
      split
      · exact becomes_runDue ..
      · exact becomes_miss ..
    all_goals exact .refl j

end Becomes

section Endings

variable {timing : Timing} {e : Ending}

theorem runCount_restart (h : j.restart t interval = .ok j') : j'.runCount = j.runCount := by
  obtain ⟨b, -, h⟩ := Except.bind_eq_ok_iff.mp h
  obtain ⟨x, -, h⟩ := Except.bind_eq_ok_iff.mp h
  cases h
  rfl

-- A run is counted, whether or not another can follow.
theorem runCount_run (j : Job) (now : Instant) (interval : Int) :
    (j.run now interval).1.runCount = j.runCount + 1 := by
  rw [run]
  split
  case h_1   => rfl
  case h_2 h => exact runCount_restart h

theorem ending_of_run (h : (j.run now interval).2 = .ok e) : j.ending j.runCount = e := by
  rw [run] at h
  split at h <;> cases h
  rfl

theorem runCount_runDue (timing : Timing) (now due : Instant) (j : Job) :
    (j.runDue timing now due).1.runCount = j.runCount + 1 := by
  have h := j.runCount_run now timing.smallestInterval
  rw [runDue]
  split <;> rwa [‹j.run _ _ = _›] at h

-- A run is reported, unless its body exits.
theorem runDue_reports (timing : Timing) (now due : Instant) (j : Job) :
    (∃ h, (j.runDue timing now due).2.2 = .ok h ∧ h.due = due ∧ h.outcome ≠ .missed) ∨
      (j.runDue timing now due).2.2 = .error .exit ∧ j.ending j.runCount = .exits := by
  rw [runDue]
  split
  case h_4 he => exact .inr ⟨rfl, ending_of_run <| congrArg (·.2) he⟩
  all_goals exact .inl ⟨_, rfl, rfl, by simp⟩

-- A round is ended by a run whose body exits.
theorem exits_of_handle (h : (j.handle timing now).2.2 = .error .exit) :
    j.ending j.runCount = .exits ∧ (j.handle timing now).1.runCount = j.runCount + 1 := by
  have hl := looked_handle timing now j
  generalize j.handle timing now = x at hl h
  cases hl
  case idle  => cases h
  case fault => cases h
  case run due _ _ _ _ _ =>
    have he := Except.map_eq_error_iff.mp h
    rcases j.runDue_reports timing now due with ⟨_, hr, -⟩ | ⟨-, hexits⟩
    · cases hr.symm.trans he
    · exact ⟨hexits, runCount_runDue ..⟩
  case miss due _ _ _ _ _ =>
    have he := Except.map_eq_error_iff.mp h
    rw [miss] at he
    split at he <;> cases he

end Endings

end Job

namespace Scheduler

variable {s s' s'' : Scheduler} {i : Nat} {is : List Nat}

-- The body of the job at a place does not exit.
def TameAt (s : Scheduler) (i : Nat) : Prop := ∀ j, s.jobs[i]? = some j → j.Tame

-- What becomes of a scheduler, as far as its jobs go.
def Becomes (s s' : Scheduler) : Prop :=
  s'.jobs.length = s.jobs.length ∧
    ∀ (i : Nat) (j' : Job), s'.jobs[i]? = some j' → ∃ j, s.jobs[i]? = some j ∧ j.Becomes j'

namespace Becomes

theorem refl (s : Scheduler) : s.Becomes s := ⟨rfl, fun _ j hj => ⟨j, hj, .refl j⟩⟩

theorem job (h : s.Becomes s') (hj' : s'.jobs[i]? = some j') :
    ∃ j, s.jobs[i]? = some j ∧ j.Becomes j' :=
  h.2 i j' hj'

theorem trans (h : s.Becomes s') (h' : s'.Becomes s'') : s.Becomes s'' := by
  refine ⟨h'.1.trans h.1, fun i j'' hj'' => ?_⟩
  obtain ⟨j', hj', hb'⟩ := h'.job hj''
  obtain ⟨j, hj, hb⟩ := h.job hj'
  exact ⟨j, hj, hb.trans hb'⟩

theorem getElem? (h : s.Becomes s') (hj : s.jobs[i]? = some j) :
    ∃ j', s'.jobs[i]? = some j' ∧ j.Becomes j' := by
  obtain ⟨hlt, -⟩ := List.getElem?_eq_some_iff.mp hj
  have hj' := List.getElem?_eq_getElem (h.1 ▸ hlt)
  obtain ⟨q, hq, hb⟩ := h.job hj'
  cases hj.symm.trans hq
  exact ⟨_, hj', hb⟩

theorem tameAt (h : s.Becomes s') (ht : s.TameAt i) : s'.TameAt i := by
  intro j' hj' n
  obtain ⟨j, hj, hb⟩ := h.job hj'
  exact hb.ending ▸ ht j hj n

end Becomes

theorem becomes_setJob (hj : s.jobs[i]? = some j) (h : j.Becomes j') :
    s.Becomes (s.setJob i j') := by
  refine ⟨List.length_set, fun k q hq => ?_⟩
  rw [getElem?_setJob hj] at hq
  split at hq
  case isTrue hk =>
    cases hq
    exact ⟨j, hk ▸ hj, h⟩
  case isFalse => exact ⟨q, hq, .refl q⟩

-- Jobs look for their next occurrences, or are handled, and nothing else is done.
structure Tended (s s' : Scheduler) : Prop where
  jobs    : ∃ js, s' = { s with jobs := js }
  becomes : s.Becomes s'

namespace Tended

theorem refl (s : Scheduler) : Tended s s := ⟨⟨s.jobs, rfl⟩, .refl s⟩

theorem trans (h : Tended s s') (h' : Tended s' s'') : Tended s s'' where
  jobs := by
    obtain ⟨js, rfl⟩ := h.jobs
    exact h'.jobs
  becomes := h.becomes.trans h'.becomes

theorem timing (h : Tended s s') : s'.timing = s.timing := h.jobs.elim fun _ he => he ▸ rfl

theorem registered (h : Tended s s') : s'.registered = s.registered :=
  h.jobs.elim fun _ he => he ▸ rfl

theorem thread (h : Tended s s') : s'.thread = s.thread := h.jobs.elim fun _ he => he ▸ rfl

theorem status (h : Tended s s') : s'.status = s.status := h.jobs.elim fun _ he => he ▸ rfl

end Tended

theorem tended_setJob (hj : s.jobs[i]? = some j) (h : j.Becomes j') : Tended s (s.setJob i j') :=
  ⟨⟨_, rfl⟩, becomes_setJob hj h⟩

-- By induction on the jobs that are left.
theorem tended_tickOver (s : Scheduler) (now : Instant) (is : List Nat) :
    Tended s (tickOver now is s).1 := by
  induction is generalizing s
  case nil => exact .refl s
  case cons i is hi =>
    rw [tickOver]
    cases hj : s.jobs[i]?
    case none => exact hi s
    case some j =>
      have hset : Tended s (s.setJob i (j.handle s.timing now).1) :=
        tended_setJob hj <| j.becomes_handle s.timing now
      dsimp only
      generalize j.handle s.timing now = looked at hset
      obtain ⟨j', notices, r⟩ := looked
      cases r
      case error => exact hset
      case ok    => exact hset.trans <| hi _

theorem tended_tick (s : Scheduler) (now : Instant) : Tended s (s.tick now).1 :=
  tended_tickOver s now s.registered

theorem tended_recompute (hj : s.jobs[i]? = some j) (hr : j.recompute now = .ok j') :
    Tended s (s.setJob i j') :=
  tended_setJob hj <| Job.becomes_recompute hr

theorem tended_recomputeOver (s : Scheduler) (now : Instant) (is : List Nat) :
    Tended s (recomputeOver now is s).1 := by
  induction is generalizing s
  case nil => exact .refl s
  case cons i is hi =>
    rw [recomputeOver]
    cases hj : s.jobs[i]?
    case none => exact hi s
    case some j =>
      dsimp only
      cases hr : j.recompute now
      case error => exact .refl s
      case ok    => exact (tended_recompute hj hr).trans <| hi _

-- Between two states of a scheduler, a call of a body exits.
def Exited (s s' : Scheduler) : Prop :=
  ∃ (i : Nat) (j j' : Job) (n : Nat), s.jobs[i]? = some j ∧ s'.jobs[i]? = some j' ∧
    j.ending n = .exits ∧ j.runCount ≤ n ∧ n < j'.runCount

theorem Exited.after (he : s'.Exited s'') (h : s.Becomes s') : s.Exited s'' := by
  obtain ⟨i, j', j'', n, hj', hj'', hn, hle, hlt⟩ := he
  obtain ⟨j, hj, hb⟩ := h.job hj'
  exact ⟨i, j, j'', n, hj, hj'', hb.ending ▸ hn, hb.count.trans hle, hlt⟩

theorem Exited.before (he : s.Exited s') (h : s'.Becomes s'') : s.Exited s'' := by
  obtain ⟨i, j, j', n, hj, hj', hn, hle, hlt⟩ := he
  obtain ⟨j'', hj'', hb⟩ := h.getElem? hj'
  exact ⟨i, j, j'', n, hj, hj'', hn, hle, hlt.trans_le hb.count⟩

-- A round that exits is one in which a body did.
theorem exited_tickOver (h : (tickOver now is s).2.2 = .error .exit) :
    s.Exited (tickOver now is s).1 := by
  induction is generalizing s
  case nil => cases h
  case cons i is hi =>
    rw [tickOver] at h ⊢
    cases hj : s.jobs[i]?
    case none =>
      rw [hj] at h
      exact hi h
    case some j =>
      rw [hj] at h
      have hbecomes := becomes_setJob hj <| j.becomes_handle s.timing now
      have hexits (h : (j.handle s.timing now).2.2 = .error .exit) := Job.exits_of_handle h
      dsimp only at h ⊢
      generalize j.handle s.timing now = looked at h hbecomes hexits
      obtain ⟨j', notices, r⟩ := looked
      cases r
      case error =>
        obtain ⟨hending, hcount⟩ := hexits <| congrArg Except.error <| Except.error.inj h
        have hj' : (s.setJob i j').jobs[i]? = some j' := by rw [getElem?_setJob hj, if_pos rfl]
        exact ⟨i, j, j', _, hj, hj', hending, Nat.le_refl _, hcount ▸ Nat.lt_succ_self _⟩
      case ok => exact (hi <| Except.map_eq_error_iff.mp h).after hbecomes

end Scheduler

end Cron
