import Cron.Proofs.Schedule.Sound
import Cron.Proofs.Search.Forward
import Cron.Scheduler.Basic

-- What handling a job does to its next occurrence, whatever the schedules of the job.

namespace Cron

variable {t b d now due : Instant} {k interval : Int} {timing : Timing} {j : Job}

namespace Instant

theorem Reaches.universal_le (h : t.Reaches d) : t.universal ≤ d.universal := by
  have := h.le
  rw [universal, universal, h.offset]
  omega

theorem Reaches.antisymm (h : t.Reaches d) (hu : d.universal ≤ t.universal) : d = t := by
  have ho := h.offset
  rw [universal, universal, ho] at hu
  exact eq_of_ticks_eq (Nat.le_antisymm (by omega) h.le) ho

-- What is reached from later than `t` is later than anything up to `t`.
theorem earlier_of_add (hk : 0 < k) (hb : t.add k = .ok b) (hs : t.sameKind due)
    (hd : due.universal ≤ t.universal) (h : b.Reaches d) : due.Earlier d := by
  have ⟨hu, ho⟩ := universal_of_add hb
  have hle := h.universal_le
  rw [sameKind, beq_iff_eq] at hs
  rw [earlier_iff, sameKind, beq_iff_eq, h.offset, ho]
  exact ⟨hs.symm, by omega⟩

end Instant

theorem Schedule.Sound.next?_reaches {s : Schedule} (h : s.Sound) (t : Instant) :
    ∃ x, s.next? t = .ok x ∧ ∀ d, x = some d → t.Reaches d := by
  obtain ⟨o, ho, hr⟩ : ∃ o, s.search t = .ok o ∧ _ :=
    Layout.search_reaches (fun c => (h.proper c).fits) t
  exact ⟨o.instant?, by rw [next?, ho]; rfl, hr⟩

namespace Job

theorem earliest_reaches {ss : List Schedule} (h : ∀ s ∈ ss, s.Sound) (t : Instant) :
    ∃ x, earliest t ss = .ok x ∧ ∀ d, x = some d → t.Reaches d := by
  induction ss
  case nil => exact ⟨none, rfl, nofun⟩
  case cons s ss hi =>
    have ⟨first, hf, hfr⟩ := (h s List.mem_cons_self).next?_reaches t
    have ⟨others, ho, hor⟩ := hi fun s hs => h s <| List.mem_cons_of_mem _ hs
    rw [earliest, hf, Except.ok_bind, ho, Except.ok_bind]
    cases first
    case none => exact ⟨others, rfl, hor⟩
    case some a =>
      cases others
      case none   => exact ⟨some a, rfl, hfr⟩
      case some b =>
        refine ⟨some (earlier a b), rfl, fun d hd => ?_⟩
        cases hd
        rw [earlier]
        split
        · exact hor b rfl
        · exact hfr a rfl

-- An instant that one of the schedules selects is the earliest from itself on.
theorem earliest_eq_self {ss : List Schedule} (h : ∀ s ∈ ss, s.Sound)
    (ht : ∃ s ∈ ss, s.next? t = .ok (some t)) : earliest t ss = .ok (some t) := by
  induction ss
  case nil =>
    obtain ⟨_, hs, -⟩ := ht
    cases hs
  case cons s ss hi =>
    have hss : ∀ s ∈ ss, s.Sound := fun s hs => h s <| List.mem_cons_of_mem _ hs
    obtain ⟨s', hs', ht⟩ := ht
    rcases List.mem_cons.mp hs' with rfl | hs'
    · -- No other schedule selects anything before `t`.
      have ⟨others, ho, hr⟩ := earliest_reaches hss t
      rw [earliest, ht, Except.ok_bind, ho, Except.ok_bind]
      cases others
      case none => rfl
      case some b =>
        have := (hr b rfl).universal_le
        dsimp only
        rw [earlier, if_neg (by omega)]
    · have ⟨first, hf, hr⟩ := (h s List.mem_cons_self).next?_reaches t
      rw [earliest, hf, Except.ok_bind, hi hss ⟨s', hs', ht⟩, Except.ok_bind]
      cases first
      case none => rfl
      case some a =>
        dsimp only
        rw [earlier]
        split
        · rfl
        · rw [(hr a rfl).antisymm <| by omega]

-- A job looks for its next occurrence from `b` on.
theorem restart_eq {x : Option Instant} (hb : t.add interval = .ok b)
    (hx : earliest b j.schedules = .ok x) :
    j.restart t interval = .ok { j with last := some b, next := x } := by
  rw [restart, hb, Except.ok_bind, recompute, Option.getD_some, hx, Except.ok_bind]

-- Without a smallest interval, a job that looks for the next occurrence from one on finds it again.
theorem restart_zero (h : ∀ s ∈ j.schedules, s.Sound)
    (ht : ∃ s ∈ j.schedules, s.next? t = .ok (some t)) :
    j.restart t 0 = .ok { j with last := some t, next := some t } := by
  rw [restart, Instant.add_zero, Except.ok_bind, recompute, Option.getD_some, earliest_eq_self h ht,
    Except.ok_bind]

end Job

-- How the next occurrence of a job moves on while occurrences of it are handled: from `a` to `b`.
-- Each is handled when it is the next one, and the one that follows is none or a later one. Nothing
-- tells of an occurrence at which the body exits.
inductive Passes : Option Instant → List Handled → Option Instant → Prop
  | done {a : Option Instant} : Passes a [] a
  | step {h : Handled} {hs : List Handled} {b : Option Instant} :
    (∀ n, h.next = some n → h.due.Earlier n) → Passes h.next hs b →
    Passes (some h.due) (h :: hs) b
  | exit {d : Instant} {x : Option Instant} {hs : List Handled} {b : Option Instant} :
    (∀ n, x = some n → d.Earlier n) → Passes x hs b → Passes (some d) hs b

namespace Passes

variable {x y z : Option Instant} {hs hs' : List Handled}

theorem append (h : Passes x hs y) (h' : Passes y hs' z) : Passes x (hs ++ hs') z := by
  induction h
  case done         => exact h'
  case step hn _ hi => exact .step hn (hi h')
  case exit hn _ hi => exact .exit hn (hi h')

-- Everything that is handled is later than what was next before.
theorem lt_next (h : Passes x hs y) (hd : ∀ n, x = some n → d.Earlier n) :
    (∀ h ∈ hs, d.Earlier h.due) ∧ ∀ n, y = some n → d.Earlier n := by
  induction h
  case done => exact ⟨nofun, hd⟩
  case step h hs b hn _ hi =>
    have he := hd _ rfl
    have ⟨hall, hlast⟩ := hi fun n hnext => he.trans <| hn n hnext
    exact ⟨List.forall_mem_cons.mpr ⟨he, hall⟩, hlast⟩
  case exit hn _ hi => exact hi fun n hnext => (hd _ rfl).trans <| hn n hnext

theorem pairwise (h : Passes x hs y) :
    hs.Pairwise (fun h h' => h.due.Earlier h'.due) ∧
      ∀ h ∈ hs, ∀ n, y = some n → h.due.Earlier n := by
  induction h
  case done => exact ⟨.nil, nofun⟩
  case step h hs b hn hp hi =>
    have ⟨hall, hlast⟩ := hp.lt_next hn
    exact ⟨List.pairwise_cons.mpr ⟨hall, hi.1⟩, List.forall_mem_cons.mpr ⟨hlast, hi.2⟩⟩
  case exit hi => exact hi

end Passes

-- At `now` it is too late for an occurrence that was due at `due`.
def Timing.Missed (timing : Timing) (due now : Instant) : Prop :=
  ∃ oldest, now.add (-timing.missedWindow) = .ok oldest ∧ oldest.sameKind due ∧
    due.universal ≤ oldest.universal

namespace Ending

-- What is logged of a call of a body after it, and what is reported of it.

def notices (job : Codes) (next : Option Instant) : Ending → List Notice
  | .returns  => [.nextRun job next]
  | .raises _ => [.failed job]
  | .exits    => []

def report (job : Codes) (due : Instant) (next : Option Instant) : Ending → Except Halt Handled
  | .returns        => .ok ⟨job, .ran, due, next, none⟩
  | .raises message => .ok ⟨job, .failed, due, next, some message⟩
  | .exits          => .error .exit

end Ending

namespace Job

-- No call of the body of a job exits.
def Tame (j : Job) : Prop := ∀ n, j.ending n ≠ .exits

-- What is reported of a job that was looked at: an occurrence that was handled, or nothing.
def reports : Except Halt (Option Handled) → List Handled
  | .ok (some h) => [h]
  | _ => []

-- A job that was restarted: it may not run before `b`, and looks for its next occurrence from then.
structure Restarted (b : Instant) (j j' : Job) : Prop where
  schedules : j'.schedules = j.schedules
  last      : j'.last = some b
  next      : ∀ d, j'.next = some d → b.Reaches d

section Treatment

variable {x : Option Instant}

-- A run counts and restarts a job however the body ends.
theorem runDue_eq (due : Instant) (hb : now.add timing.smallestInterval = .ok b)
    (hx : earliest b j.schedules = .ok x) :
    j.runDue timing now due =
      ({ j with runCount := j.runCount + 1, last := some b, next := x },
        [.running j.name due, .called j.bodyName] ++ (j.ending j.runCount).notices j.name x,
        (j.ending j.runCount).report j.name due x) := by
  have hr : ({ j with runCount := j.runCount + 1 } : Job).restart now timing.smallestInterval =
      .ok { j with runCount := j.runCount + 1, last := some b, next := x } := restart_eq hb hx
  rw [runDue, run, hr]
  cases he : j.ending j.runCount <;> rfl

theorem miss_eq (hb : due.add timing.smallestInterval = .ok b)
    (hx : earliest b j.schedules = .ok x) :
    j.miss timing due = ({ j with last := some b, next := x }, [.missed j.name due],
      .ok ⟨j.name, .missed, due, x, none⟩) := by
  rw [miss, restart_eq hb hx]

end Treatment

theorem runDue_restarted (due : Instant) (h : ∀ s ∈ j.schedules, s.Sound)
    (hb : now.add timing.smallestInterval = .ok b) :
    Restarted b j (j.runDue timing now due).1 ∧
      (j.runDue timing now due).1.runCount = j.runCount + 1 ∧
      ((∃ handled, (j.runDue timing now due).2.2 = .ok handled ∧ j.ending j.runCount ≠ .exits ∧
        handled.due = due ∧ handled.next = (j.runDue timing now due).1.next ∧
        handled.outcome ≠ .missed) ∨
      (j.runDue timing now due).2.2 = .error .exit ∧ j.ending j.runCount = .exits) := by
  obtain ⟨x, hx, hr⟩ := earliest_reaches h b
  rw [runDue_eq due hb hx]
  refine ⟨⟨rfl, rfl, hr⟩, rfl, ?_⟩
  cases he : j.ending j.runCount
  case returns => exact .inl ⟨_, rfl, by simp, rfl, rfl, by simp⟩
  case raises  => exact .inl ⟨_, rfl, by simp, rfl, rfl, by simp⟩
  case exits   => exact .inr ⟨rfl, rfl⟩

-- A miss restarts a job as well, unless the calendar ends.
theorem miss_restarted (h : ∀ s ∈ j.schedules, s.Sound)
    (hb : due.add timing.smallestInterval = .ok b) :
    ∃ handled, (j.miss timing due).2.2 = .ok handled ∧
      Restarted b j (j.miss timing due).1 ∧ (j.miss timing due).1.runCount = j.runCount ∧
      handled.due = due ∧ handled.next = (j.miss timing due).1.next ∧
      handled.outcome = .missed := by
  obtain ⟨x, hx, hr⟩ := earliest_reaches h b
  rw [miss_eq hb hx]
  exact ⟨_, rfl, ⟨rfl, rfl, hr⟩, rfl, rfl, rfl, rfl⟩

theorem miss_of_error {f : Fault} (hb : due.add timing.smallestInterval = .error f) :
    j.miss timing due = (j, [.missed j.name due], .error (.fault f)) := by
  rw [miss, restart, hb, Except.error_bind]

-- A job that is due runs if it is late by less than the missed window.
theorem handle_of_due {oldest : Instant} (hd : j.next = some due)
    (hbefore : now.before due = .ok false) (ho : now.add (-timing.missedWindow) = .ok oldest) :
    j.handle timing now =
      if now.universal - due.universal < timing.missedWindow then
        ((j.runDue timing now due).1, (j.runDue timing now due).2.1,
          (j.runDue timing now due).2.2.map some)
      else ((j.miss timing due).1, (j.miss timing due).2.1, (j.miss timing due).2.2.map some) := by
  have hu := (Instant.universal_of_add ho).1
  simp only [handle, hd, hbefore, ho]
  by_cases hlt : oldest.universal < due.universal
  case pos => rw [if_pos hlt, if_pos (by omega)]
  case neg => rw [if_neg hlt, if_neg (by omega)]

theorem handle_of_earlier (h : ∀ d, j.next = some d → now.before d = .ok true) :
    j.handle timing now = (j, [], .ok none) := by
  cases hd : j.next
  case none     => simp only [handle, hd]
  case some due => simp only [handle, hd, h due hd]

-- Without a smallest interval, a job stays at an occurrence that it has missed.
theorem handle_missed (h : ∀ s ∈ j.schedules, s.Sound) (hz : timing.smallestInterval = 0)
    (hw : 0 ≤ timing.missedWindow) (hd : j.next = some due)
    (ht : ∃ s ∈ j.schedules, s.next? due = .ok (some due)) (hm : timing.Missed due now) :
    j.handle timing now = ({ j with last := some due }, [.missed j.name due],
      .ok (some ⟨j.name, .missed, due, some due, none⟩)) := by
  have ⟨b, hb, hs, hle⟩ := hm
  have hbefore : now.before due = .ok false := by
    have ⟨hu, ho⟩ := Instant.universal_of_add hb
    refine Instant.before_eq_ok_false.mpr ⟨?_, by omega⟩
    rwa [Instant.sameKind, ← ho]
  rw [handle, hd]
  simp only [hbefore, hb, if_neg (Int.not_lt.mpr hle), miss, hz, restart_zero h ht, Except.map]

-- What comes of looking at a job at `now`. It stays as it is if it is not due, or if that cannot be
-- told; otherwise it runs, or has missed its occurrence.
inductive Looked (timing : Timing) (now : Instant) (j : Job) :
    Job × List Notice × Except Halt (Option Handled) → Prop
  | idle : (∀ d, j.next = some d → now.before d = .ok true) → Looked timing now j (j, [], .ok none)
  | fault {due : Instant} {f : Fault} :
    j.next = some due →
    now.before due = .error f ∨
      now.before due = .ok false ∧ now.add (-timing.missedWindow) = .error f →
    Looked timing now j (j, [], .error (.fault f))
  | run {due oldest : Instant} :
    j.next = some due → now.before due = .ok false → now.add (-timing.missedWindow) = .ok oldest →
    oldest.universal < due.universal →
    Looked timing now j ((j.runDue timing now due).1, (j.runDue timing now due).2.1,
      (j.runDue timing now due).2.2.map some)
  | miss {due oldest : Instant} :
    j.next = some due → now.before due = .ok false → now.add (-timing.missedWindow) = .ok oldest →
    due.universal ≤ oldest.universal →
    Looked timing now j ((j.miss timing due).1, (j.miss timing due).2.1,
      (j.miss timing due).2.2.map some)

theorem looked_handle (timing : Timing) (now : Instant) (j : Job) :
    Looked timing now j (j.handle timing now) := by
  cases hd : j.next
  case none =>
    simp only [handle, hd]
    exact .idle (by simp [hd])
  case some due =>
    cases hbefore : now.before due
    case error f =>
      simp only [handle, hd, hbefore]
      exact .fault hd (.inl hbefore)
    case ok early =>
      cases early
      case true =>
        simp only [handle, hd, hbefore]
        exact .idle (by simp [hd, hbefore])
      case false =>
        cases ho : now.add (-timing.missedWindow)
        case error f =>
          simp only [handle, hd, hbefore, ho]
          exact .fault hd (.inr ⟨hbefore, ho⟩)
        case ok oldest =>
          simp only [handle, hd, hbefore, ho]
          split
          case isTrue hlt  => exact .run hd hbefore ho hlt
          case isFalse hle => exact .miss hd hbefore ho (Int.not_lt.mp hle)

theorem passes_single {handled : Handled} {x : Option Instant} (hd : handled.due = due)
    (hx : handled.next = x) (h : ∀ n, x = some n → due.Earlier n) :
    Passes (some due) [handled] x := by
  subst hd hx
  exact .step h .done

-- A job that was looked at is as it was or has passed one occurrence.
theorem handle_passes (h : ∀ s ∈ j.schedules, s.Sound) (hi : 0 < timing.smallestInterval)
    (hb : now.add timing.smallestInterval = .ok b) :
    Passes j.next (reports (j.handle timing now).2.2) (j.handle timing now).1.next := by
  have hl := looked_handle timing now j
  generalize j.handle timing now = x at hl
  cases hl
  case idle  => exact .done
  case fault => exact .done
  case run due oldest hd hbefore _ _ =>
    obtain ⟨hs, hle⟩ := Instant.before_eq_ok_false.mp hbefore
    obtain ⟨hr, -, hout⟩ := j.runDue_restarted due h hb
    have hlater (n) (hn : (j.runDue timing now due).1.next = some n) : due.Earlier n :=
      Instant.earlier_of_add hi hb hs hle (hr.next n hn)
    rcases hout with ⟨handled, he, -, hdue, hnext, -⟩ | ⟨he, -⟩
    · rw [he, hd]
      exact passes_single hdue hnext hlater
    · rw [he, hd]
      exact .exit hlater .done
  case miss due oldest hd _ _ _ =>
    cases hb : due.add timing.smallestInterval
    case error f =>
      rw [miss_of_error hb]
      exact .done
    case ok b =>
      obtain ⟨handled, hm, hr, -, hdue, hnext, -⟩ := j.miss_restarted h hb
      have hs : due.sameKind due := by simp [Instant.sameKind]
      rw [hm, hd]
      exact passes_single hdue hnext fun n hn =>
        Instant.earlier_of_add hi hb hs (Int.le_refl _) (hr.next n hn)

end Job

namespace Scheduler

theorem getElem?_setJob {s : Scheduler} {i : Nat} (hj : s.jobs[i]? = some j) (j' : Job) (k : Nat) :
    (s.setJob i j').jobs[k]? = if i = k then some j' else s.jobs[k]? := by
  obtain ⟨hlt, -⟩ := List.getElem?_eq_some_iff.mp hj
  by_cases hk : i = k
  · subst hk
    rw [if_pos rfl]
    exact List.getElem?_set_self hlt
  · rw [if_neg hk]
    exact List.getElem?_set_ne hk

end Scheduler

end Cron
