import Cron.Proofs.Scheduler.Steadiness

-- What becomes of occurrences that are due when a thread is started without delay. Those of jobs
-- that have run or missed one before are handled; a job that has not looks for its next occurrence
-- from the clock on, so that what it had due is dropped.

namespace Cron

open Instant

variable {clock now d due : Instant} {timing : Timing} {i k : Nat} {is : List Nat} {j j' : Job}
variable {name : Codes} {names : Codes → Prop} {n : Notice} {ns : List Notice}

namespace Notice

-- The job and the occurrence of it that is handled.
def occurrence? : Notice → Option (Codes × Instant)
  | running job due | missed job due => some (job, due)
  | _ => none

-- An occurrence before `clock` is handled only of a job with one of some names.
def Only (names : Codes → Prop) (clock : Instant) (n : Notice) : Prop :=
  ∀ name d, n.occurrence? = some (name, d) → d.Earlier clock → names name

theorem Only.of_none (h : n.occurrence? = none) : n.Only names clock := by
  intro name d hd
  cases h.symm.trans hd

end Notice

namespace Job

section Notices

theorem occurrence_runDue (hn : n ∈ (j.runDue timing now due).2.1)
    (ho : n.occurrence? = some (name, d)) : name = j.name ∧ d = due := by
  rw [runDue] at hn
  split at hn
  all_goals
    simp only [List.cons_append, List.nil_append, List.mem_cons, List.not_mem_nil, or_false] at hn
    rcases hn with rfl | hn
    · cases ho
      exact ⟨rfl, rfl⟩
  case h_4 =>
    subst hn
    cases ho
  all_goals rcases hn with rfl | rfl <;> cases ho

theorem occurrence_miss (hn : n ∈ (j.miss timing due).2.1)
    (ho : n.occurrence? = some (name, d)) : name = j.name ∧ d = due := by
  have hname := (j.becomes_miss timing due).name
  rw [miss] at hn hname
  split at hn
  all_goals
    rw [‹j.restart _ _ = _›] at hname
    obtain rfl := List.mem_singleton.mp hn
    cases ho
    exact ⟨hname, rfl⟩

-- Notices are given of the occurrence that was next.
theorem occurrence_handle (hn : n ∈ (j.handle timing now).2.1)
    (ho : n.occurrence? = some (name, d)) : name = j.name ∧ j.next = some d := by
  have hl := looked_handle timing now j
  generalize j.handle timing now = x at hl hn
  cases hl
  case idle  => cases hn
  case fault => cases hn
  case run due _ hd _ _ _ =>
    obtain ⟨hname, rfl⟩ := occurrence_runDue hn ho
    exact ⟨hname, hd⟩
  case miss due _ hd _ _ _ =>
    obtain ⟨hname, rfl⟩ := occurrence_miss hn ho
    exact ⟨hname, hd⟩

end Notices

-- A job with one of some names, or one that has nothing due before `clock`.
def Current (names : Codes → Prop) (clock : Instant) (j : Job) : Prop :=
  names j.name ∨ ∀ d, j.next = some d → clock.universal ≤ d.universal

theorem Restarted.current {b : Instant} (hr : j.Restarted b j')
    (hb : clock.universal ≤ b.universal) : j'.Current names clock :=
  .inr fun d hd => hb.trans (hr.next d hd).universal_le

-- A job stays so when it is looked at, since its next occurrence does not move back.
theorem Current.handle (hc : j.Current names clock) (h : j.Local)
    (hi : 0 ≤ timing.smallestInterval) : (j.handle timing clock).1.Current names clock := by
  rcases hc with hname | hc
  · exact .inl <| (j.becomes_handle timing clock).name ▸ hname
  have hl := looked_handle timing clock j
  generalize j.handle timing clock = x at hl
  cases hl
  case idle  => exact .inr hc
  case fault => exact .inr hc
  case run due oldest _ _ _ _ =>
    cases hb : clock.add timing.smallestInterval
    case error f =>
      dsimp only
      rw [runDue_of_error due hb]
      exact .inr hc
    case ok b =>
      have := (universal_of_add hb).1
      exact (j.runDue_restarted due h.sound hb).1.current <| by omega
  case miss due oldest hd _ _ _ =>
    cases hb : due.add timing.smallestInterval
    case error f =>
      rw [miss_of_error hb]
      exact .inr hc
    case ok b =>
      obtain ⟨handled, -, hr, -⟩ := j.miss_restarted h.sound hb
      have := (universal_of_add hb).1
      have := hc due hd
      exact hr.current <| by omega

theorem Current.only (hc : j.Current names clock) (hn : n ∈ (j.handle timing now).2.1) :
    n.Only names clock := by
  intro name d ho he
  obtain ⟨rfl, hd⟩ := occurrence_handle hn ho
  exact hc.resolve_right fun hc => Int.not_le.mpr (earlier_iff.mp he).2 <| hc d hd

-- Computing the next occurrence again changes nothing, unless the job has not been handled before.
theorem recompute_of_last (hl : j.last ≠ none) (h : j.recompute now = .ok j) :
    j.recompute clock = .ok j := by
  obtain ⟨b, hb⟩ := Option.ne_none_iff_exists'.mp hl
  rw [recompute, hb] at h ⊢
  exact h

theorem recompute_of_selected (h : j.Local) (hl : j.last = none) (hd : j.next = some clock)
    (hx : ∃ x ∈ j.schedules, x.next? clock = .ok (some clock)) : j.recompute clock = .ok j := by
  have hstart : j.last.getD clock = clock := by rw [hl, Option.getD_none]
  rw [recompute, hstart, earliest_eq_self h.sound hx, Except.ok_bind, ← hd]

end Job

namespace Scheduler

variable {s s' : Scheduler}

-- A scheduler whose registered jobs have nothing due before `clock`, but for those with some names.
def Current (names : Codes → Prop) (clock : Instant) (s : Scheduler) : Prop :=
  ∀ i ∈ s.registered, ∀ j, s.jobs[i]? = some j → j.Current names clock

theorem Current.setJob (hc : s.Current names clock) (hj : s.jobs[i]? = some j)
    (hj' : j'.Current names clock) : (s.setJob i j').Current names clock := by
  intro k hk q hq
  rw [getElem?_setJob hj] at hq
  split at hq
  · cases hq
    exact hj'
  · exact hc k hk q hq

section Handling

variable (hclock : clock.offset = none)

include hclock

-- By induction on the jobs that are left.
theorem Current.tickOver (hc : s.Current names clock) (h : s.Local)
    (hi : 0 ≤ s.timing.smallestInterval) (his : ∀ i ∈ is, i ∈ s.registered) :
    (tickOver clock is s).1.Current names clock ∧
      ∀ n ∈ (tickOver clock is s).2.1, n.Only names clock := by
  induction is generalizing s
  case nil => exact ⟨hc, nofun⟩
  case cons i is ih =>
    obtain ⟨him, his⟩ := List.forall_mem_cons.mp his
    rw [Scheduler.tickOver]
    cases hj : s.jobs[i]?
    case none => exact ih hc h hi his
    case some j =>
      have hcj := hc i him j hj
      have hcj' := hcj.handle (h.job hj) hi
      have hj' := (h.job hj).handle s.timing hclock
      have honly : ∀ n ∈ (j.handle s.timing clock).2.1, n.Only names clock := fun _ => hcj.only
      dsimp only
      generalize j.handle s.timing clock = looked at hcj' hj' honly
      obtain ⟨j', notices, r⟩ := looked
      have hs' := hc.setJob hj hcj'
      cases r
      case error => exact ⟨hs', honly⟩
      case ok =>
        obtain ⟨hc', hrest⟩ := ih hs' (h.setJob i hj') hi his
        exact ⟨hc', List.forall_mem_append.mpr ⟨honly, hrest⟩⟩

end Handling

theorem only_stop (s : Scheduler) : ∀ n ∈ s.stop.2, n.Only names clock :=
  List.forall_mem_singleton.mpr <| .of_none rfl

theorem only_halt (s : Scheduler) (e : Halt) : ∀ n ∈ (s.halt e).2, n.Only names clock := by
  cases e
  case fault f => exact s.only_stop
  case exit    => exact nofun

theorem only_sleep (s : Scheduler) {micros : Int} {thread : Thread}
    (hn : n.occurrence? = none) : ∀ n' ∈ (s.sleep micros thread n).2, n'.Only names clock := by
  rw [sleep]
  split
  case isTrue  => exact List.forall_mem_cons.mpr ⟨.of_none hn, s.only_stop⟩
  case isFalse => exact List.forall_mem_singleton.mpr <| .of_none hn

-- By induction on how far the jobs are behind.
theorem Current.settle {s : Scheduler} (hclock : clock.offset = none)
    (hc : s.Current names clock) (h : s.Local) (hi : 0 ≤ s.timing.smallestInterval) :
    ∀ n ∈ (s.settle clock).2, n.Only names clock := by
  cases hw : s.wait clock
  case error f =>
    rw [settle_of_unknown hw]
    exact s.only_stop
  case ok micros =>
    by_cases hm : 0 < micros
    case pos =>
      rw [settle_of_wait hw hm]
      exact s.only_sleep rfl
    case neg =>
      have hk := h.kept_tick hclock
      obtain ⟨hafter, honly⟩ := hc.tickOver hclock h hi fun i hi => hi
      rw [← tick] at hafter honly
      rcases ht : s.tick clock with ⟨after, notices, e | results⟩
      · rw [ht] at honly
        rw [settle_of_halt hw hm ht]
        exact List.forall_mem_append.mpr ⟨honly, after.only_halt e⟩
      · rw [ht] at hk hafter honly
        rw [settle_of_tick hw hm ht]
        split
        case isTrue hlt =>
          have hrest := hafter.settle hclock hk.known (hk.timing ▸ hi)
          exact List.forall_mem_append.mpr ⟨honly, hrest⟩
        case isFalse => exact honly
termination_by s.backlog clock

section Places

theorem getElem?_recomputeOver (hn : is.Nodup) (hr : recomputeOver now is s = (s', .ok ()))
    (k : Nat) : s'.jobs[k]? =
      if k ∈ is then s.jobs[k]?.bind fun j => (j.recompute now).toOption else s.jobs[k]? := by
  induction is generalizing s
  case nil =>
    cases hr
    rw [if_neg List.not_mem_nil]
  case cons i is hi =>
    obtain ⟨hmem, hn⟩ := List.nodup_cons.mp hn
    rw [recomputeOver] at hr
    cases hj : s.jobs[i]?
    case none =>
      rw [hj] at hr
      rw [hi hn hr]
      by_cases hk : k = i
      case pos => simp [hk, hmem, hj]
      case neg => simp [hk]
    case some j =>
      rw [hj] at hr
      dsimp only at hr
      cases hj' : j.recompute now
      case error =>
        rw [hj'] at hr
        cases hr
      case ok j' =>
        rw [hj'] at hr
        rw [hi hn hr, getElem?_setJob hj]
        by_cases hk : i = k
        case pos =>
          subst hk
          simp [hmem, hj, hj', Except.toOption]
        case neg => simp [hk, Ne.symm hk]

-- A round that answers has handled each job, which no other job has changed before.
theorem infix_tickOver {results : List Handled} (hn : is.Nodup)
    (hr : (tickOver now is s).2.2 = .ok results) (hi : i ∈ is) (hj : s.jobs[i]? = some j) :
    (∃ r, (j.handle s.timing now).2.2 = .ok r) ∧
      (j.handle s.timing now).2.1 <:+: (tickOver now is s).2.1 := by
  have hall := (tickOver_answers_iff hn).mp ⟨results, hr⟩
  have hin : s.reportOf now i <:+: (is.map (s.reportOf now)).flatten :=
    List.infix_of_mem_flatten <| List.mem_map_of_mem hi
  rw [tickOver_eq hn hall, ← reportOf_eq hj, List.flatMap_def]
  exact ⟨(answers_iff hj).mp (hall i hi), hin⟩

end Places

-- A scheduler with all registered jobs computed again from `clock` on.
structure Recomputed (clock : Instant) (s s' : Scheduler) : Prop where
  known      : s'.Local
  timing     : s'.timing = s.timing
  registered : s'.registered = s.registered
  becomes    : s.Becomes s'
  jobs       : ∀ i ∈ s.registered,
    s'.jobs[i]? = s.jobs[i]?.bind fun j => (j.recompute clock).toOption

-- The notices of a round that answers come first.
theorem prefix_settle {micros : Int} {results : List Handled} (hw : s.wait clock = .ok micros)
    (hm : ¬0 < micros) (ht : (s.tick clock).2.2 = .ok results) :
    (s.tick clock).2.1 <+: (s.settle clock).2 := by
  rcases he : s.tick clock with ⟨after, notices, r⟩
  rw [he] at ht
  cases ht
  rw [settle_of_tick hw hm he]
  split
  case isTrue  => exact List.prefix_append _ _
  case isFalse => exact List.prefix_refl _

section Start

variable (h : s.Local) (hclock : clock.offset = none) (hoff : s.thread = .off)
variable (hdelay : s.timing.startDelay ≤ 0)

include h hclock hoff hdelay

-- Without a start delay, the thread settles once all jobs are computed again.
theorem Local.start_eq :
    ∃ s' : Scheduler, Recomputed clock s s' ∧ s.start clock = s'.settle clock := by
  have h' : { s with thread := .busy, status := .active }.Local := ⟨h.jobs, h.nodup⟩
  obtain ⟨js, hjs, hl⟩ := h'.recomputeOver hclock s.registered
  have hbecomes := (tended_recomputeOver { s with thread := .busy, status := .active } clock
    s.registered).becomes
  rw [hjs] at hbecomes
  refine ⟨{ s with thread := .busy, status := .active, jobs := js },
    ⟨⟨hl, h.nodup⟩, rfl, rfl, hbecomes, fun i hi => ?_⟩, ?_⟩
  · have hi' := getElem?_recomputeOver h.nodup hjs i
    rwa [if_pos hi] at hi'
  · rw [start, if_pos hoff, launch]
    simp only [if_neg (Int.not_lt.mpr hdelay), hjs]

-- A job that its computation leaves as it is has its occurrence handled, unless a body exits.
theorem Local.handled_of_start (hr : s.timing.Roomy clock)
    (htame : ∀ i ∈ s.registered, s.TameAt i) (hi : i ∈ s.registered)
    (hj : s.jobs[i]? = some j) (hsame : j.recompute clock = .ok j) (hd : j.next = some d)
    (hle : d.NotLater clock) :
    ∃ handled, (j.handle s.timing clock).2.2 = .ok (some handled) ∧ handled.due = d ∧
      (j.handle s.timing clock).2.1 <:+: (s.start clock).2 := by
  obtain ⟨s', hs', hstart⟩ := h.start_eq hclock hoff hdelay
  have hi' : i ∈ s'.registered := hs'.registered ▸ hi
  have hj' : s'.jobs[i]? = some j := by
    rw [hs'.jobs i hi, hj, Option.bind_some, hsame]
    rfl
  -- A job is due, so that the thread does not wait.
  obtain ⟨micros, hw, -⟩ := hs'.known.exists_wait hclock
  have hm : ¬0 < micros := fun hm => by
    have hlt := rested_of_wait hw hm i hi' d <| (nextOf_eq hj').trans hd
    exact absurd (notLater_iff.mp hle).2 <| Int.not_le.mpr (earlier_iff.mp hlt).2
  have htame' : ∀ i ∈ s'.registered, s'.TameAt i := fun i hi =>
    hs'.becomes.tameAt <| htame i <| hs'.registered ▸ hi
  obtain ⟨results, ht⟩ := hs'.known.tick_answers hclock htame' (hs'.timing ▸ hr)
  obtain ⟨⟨r, hok⟩, hin⟩ := infix_tickOver hs'.known.nodup ht hi' hj'
  rw [hs'.timing] at hok hin
  have hdue := Job.handle_due hok
  rw [Job.due?_eq_some_iff.mpr ⟨hd, (notLater_iff.mp hle).2⟩] at hdue
  obtain ⟨handled, rfl, heq⟩ := Option.map_eq_some_iff.mp hdue
  exact ⟨handled, hok, heq, hstart ▸ hin.trans (prefix_settle hw hm ht).isInfix⟩

-- What has not been handled before has nothing due when it is computed from the clock on.
theorem Local.only_start (hi : 0 ≤ s.timing.smallestInterval) :
    ∀ n ∈ (s.start clock).2, n.Only (fun name => ∃ i ∈ s.registered, ∃ j, s.jobs[i]? = some j ∧
      j.name = name ∧ j.last ≠ none) clock := by
  obtain ⟨s', hs', hstart⟩ := h.start_eq hclock hoff hdelay
  rw [hstart]
  refine Current.settle hclock (fun i hi j' hj' => ?_) hs'.known (hs'.timing ▸ hi)
  rw [hs'.registered] at hi
  rw [hs'.jobs i hi] at hj'
  obtain ⟨j, hj, hr⟩ := Option.bind_eq_some_iff.mp hj'
  have hr := Except.toOption_eq_some_iff.mp hr
  by_cases hlast : j.last = none
  case neg => exact .inl ⟨i, hi, j, hj, (Job.becomes_recompute hr).name.symm, hlast⟩
  case pos =>
    obtain ⟨x, hx, hreach⟩ := Job.earliest_reaches (h.job hj).sound clock
    rw [Job.recompute, hlast, Option.getD_none, hx, Except.ok_bind] at hr
    cases hr
    exact .inr fun d hd => (hreach d hd).universal_le

end Start

end Scheduler

open Scheduler Schedule

section Starting

variable {s : Scheduler}

-- Where no instant has an offset and there is no start delay: before the thread first sleeps, it
-- handles what is due of the registered jobs that have been handled before, and of those that have
-- not, what is due just then, unless a body exits. Of occurrences before the clock, it handles no
-- others.
theorem start_handles_due (hs : ∀ j ∈ s.jobs, ∀ x ∈ j.schedules, x.Made)
    (hd : ∀ j ∈ s.jobs, ∀ d, j.next = some d ∨ j.last = some d → d.offset = none)
    (hr : s.registered.Nodup) (hoff : s.thread = .off) (hdelay : s.timing.startDelay ≤ 0)
    (hclock : clock.offset = none) (hroom : s.timing.Roomy clock) :
    ((∀ i ∈ s.registered, s.TameAt i) →
      ∀ i ∈ s.registered, ∀ j d, s.jobs[i]? = some j → (∃ t, j.recompute t = .ok j) →
      j.next = some d → d.NotLater clock →
      (j.last ≠ none ∨ d = clock ∧ ∃ x ∈ j.schedules, x.next? d = .ok (some d)) →
      ∃ handled, (j.handle s.timing clock).2.2 = .ok (some handled) ∧ handled.due = d ∧
        (j.handle s.timing clock).2.1 <:+: (s.start clock).2) ∧
    ∀ n ∈ (s.start clock).2, ∀ name d, n.occurrence? = some (name, d) → d.Earlier clock →
      ∃ i ∈ s.registered, ∃ j, s.jobs[i]? = some j ∧ j.name = name ∧ j.last ≠ none := by
  have h : s.Local := local_of_made hs hd hr
  refine ⟨fun htame i hi j d hj hsame hnext hle hlast => ?_,
    h.only_start hclock hoff hdelay hroom.interval⟩
  refine h.handled_of_start hclock hoff hdelay hroom htame hi hj ?_ hnext hle
  by_cases hl : j.last = none
  case neg =>
    obtain ⟨t, hsame⟩ := hsame
    exact Job.recompute_of_last hl hsame
  case pos =>
    obtain ⟨rfl, hx⟩ := hlast.resolve_left (not_not.mpr hl)
    exact Job.recompute_of_selected (h.job hj) hl hnext hx

end Starting

-- At half past nine, the thread is started of two jobs that were due at nine, one of which ran at
-- eight.
theorem start_handles_due_of_hourly_job :
    let d : Date := ⟨2024, 1, 15, by decide, by decide, by decide, by decide, by decide, by decide⟩
    let last : Instant := ⟨d, 8 * hourMicros + minuteMicros, none, by decide⟩
    let nine : Instant := ⟨d, 9 * hourMicros, none, by decide⟩
    let clock : Instant := ⟨d, 9 * hourMicros + 30 * minuteMicros, none, by decide⟩
    let schedule := (unrestricted ⟨.unix, 2024, 100, 900⟩).after (.add 1 "0")
    let a : Job :=
      { Job.new "a" (.own "Report") .unix [schedule] fun _ => .returns with
        next := some nine, last := some last }
    let b : Job :=
      { Job.new "b" (.own "Report") .unix [schedule] fun _ => .returns with next := some nine }
    let s : Scheduler :=
      { idle { Timing.standard with startDelay := 0 } [a, b] with registered := [0, 1] }
    (∃ handled, (a.handle s.timing clock).2.2 = .ok (some handled) ∧ handled.due = nine ∧
      (a.handle s.timing clock).2.1 <:+: (s.start clock).2) ∧
    ∀ n ∈ (s.start clock).2, ∀ name d, n.occurrence? = some (name, d) → d.Earlier clock →
      name = "a" := by
  intro d last nine clock schedule a b s
  have hmade : schedule.Made := ⟨⟨.unix, 2024, 100, 900⟩, none, _, rfl, [.add 1 "0"], rfl⟩
  have hjobs : ∀ j ∈ s.jobs, ∀ x ∈ j.schedules, x.Made := by
    simp [s, a, b, idle, Job.new, hmade]
  have hroom : s.timing.Roomy clock :=
    ⟨by decide, Except.exists_eq_ok_of_isSome (by decide +kernel),
      Except.exists_eq_ok_of_isSome (by decide +kernel)⟩
  have hnext : schedule.next? last = .ok (some nine) :=
    Except.toOption_eq_some_iff.mp (by decide +kernel)
  have hsame : a.recompute clock = .ok a := by
    simp only [Job.recompute, a, Option.getD_some, Job.earliest, Job.new, hnext, Except.ok_bind]
  have hle : nine.NotLater clock := notLater_iff.mpr ⟨rfl, by decide +kernel⟩
  obtain ⟨hdue, honly⟩ := start_handles_due hjobs
    (by simp [s, a, b, idle, Job.new, nine, last, or_imp, forall_and]) (by decide) rfl
    (Int.le_refl 0) rfl hroom
  have htame : ∀ i ∈ s.registered, s.TameAt i := by
    simp [s, a, b, idle, TameAt, Job.Tame, Job.new]
  refine ⟨hdue htame 0 (by decide) a nine rfl ⟨clock, hsame⟩ rfl hle
    (.inl (Option.some_ne_none last)), fun n hn name d ho he => ?_⟩
  obtain ⟨i, hi, j, hj, rfl, hl⟩ := honly n hn name d ho he
  rcases List.mem_pair.mp hi with rfl | rfl
  · cases hj
    rfl
  · cases hj
    exact absurd rfl hl

-- A daily job that was put in at eight is due at nine; nothing is heard of that when the thread is
-- started at half past nine.
theorem start_drops_occurrence :
    let d : Date := ⟨2024, 1, 15, by decide, by decide, by decide, by decide, by decide, by decide⟩
    let eight : Instant := ⟨d, 8 * hourMicros, none, by decide⟩
    let nine : Instant := ⟨d, 9 * hourMicros, none, by decide⟩
    let clock : Instant := ⟨d, 9 * hourMicros + 30 * minuteMicros, none, by decide⟩
    ∃ schedule, Schedule.read? ⟨.unix, 2024, 100, 900⟩ (some "0 9 * * *") = .ok schedule ∧
      let job : Job :=
        { Job.new "a" (.own "Report") .unix [schedule] fun _ => .returns with next := some nine }
      let s : Scheduler :=
        { idle { Timing.standard with startDelay := 0 } [job] with registered := [0] }
      (Job.new "a" (.own "Report") .unix [schedule] fun _ => .returns).recompute eight = .ok job ∧
        nine.NotLater clock ∧ ∀ n ∈ (s.start clock).2, n.occurrence? ≠ some (job.name, nine) := by
  intro d eight nine clock
  have hfound : ((Schedule.read? ⟨.unix, 2024, 100, 900⟩ (some "0 9 * * *")).toOption.bind fun x =>
      (x.next? eight).toOption) = some (some nine) := by decide +kernel
  obtain ⟨schedule, hx, hnext⟩ := Option.bind_eq_some_iff.mp hfound
  have hx := Except.toOption_eq_some_iff.mp hx
  have hnext := Except.toOption_eq_some_iff.mp hnext
  refine ⟨schedule, hx, ?_⟩
  intro job s
  have hlocal : s.Local := by
    refine ⟨List.forall_mem_singleton.mpr ⟨List.forall_mem_singleton.mpr ?_, ?_, nofun⟩,
      List.nodup_singleton 0⟩
    · exact Made.sound ⟨_, _, _, hx, [], rfl⟩
    · simp [job, nine]
  have hnine : nine.Earlier clock := earlier_iff.mpr ⟨rfl, by decide +kernel⟩
  refine ⟨?_, notLater_iff.mpr ⟨rfl, by decide +kernel⟩, fun n hn ho => ?_⟩
  · simp only [Job.recompute, Job.new, Option.getD_none, Job.earliest, hnext, Except.ok_bind, job]
  · obtain ⟨i, hi, j, hj, -, hl⟩ :=
      hlocal.only_start rfl rfl (Int.le_refl 0) (by decide : (0 : Int) ≤ 60000000) n hn _ _ ho hnine
    obtain rfl := List.mem_singleton.mp hi
    cases hj
    exact hl rfl

end Cron
