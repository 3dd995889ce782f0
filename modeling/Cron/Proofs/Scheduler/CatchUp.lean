import Cron.Proofs.Scheduler.Descent
import Cron.Proofs.Scheduler.Waiting

-- Catching up at one instant comes to an end, for a scheduler that is asked and for its thread.

namespace Cron

open Instant

variable {now d : Instant} {j : Job} {i : Nat}

namespace Scheduler

variable {s s' : Scheduler} {vs : List (Nat × Handled)}

section Backlog

theorem backlog_eq (s : Scheduler) (now : Instant) :
    s.backlog now = (s.registered.map (s.lagOf now)).sum := by
  rw [backlog, handledJobs]
  induction s.registered
  case nil => rfl
  case cons i is hi =>
    rw [List.filterMap_cons, List.map_cons, List.sum_cons, ← hi, lagOf]
    cases s.jobs[i]? <;> simp

theorem backlog_tick_lt (h : s.Able now) (hne : (s.tick now).2.2 ≠ .ok []) :
    (s.tick now).1.backlog now < s.backlog now := by
  obtain ⟨hup, -, -, hless⟩ := tick_catchesUp h
  obtain ⟨i, hi, hlt⟩ := hless hne
  rw [backlog_eq, backlog_eq, hup.registered]
  exact List.sum_lt_sum _ _ (fun k _ => hup.lag_le k) ⟨i, hi, hlt⟩

-- By induction on the backlog.
theorem exists_idle {s : Scheduler} (h : s.Able now) :
    ∃ n, (∀ m < n, ((s.ticks (List.replicate m now)).tick now).2.2 ≠ .ok []) ∧
      ((s.ticks (List.replicate n now)).tick now).2.2 = .ok [] := by
  by_cases hne : (s.tick now).2.2 = .ok []
  case pos => exact ⟨0, by simp, hne⟩
  case neg =>
    obtain ⟨hup, -⟩ := tick_catchesUp h
    obtain ⟨n, hbusy, hidle⟩ := exists_idle <| hup.able h
    refine ⟨n + 1, fun m hm => ?_, hidle⟩
    cases m
    case zero   => exact hne
    case succ m => exact hbusy m <| Nat.lt_of_succ_lt_succ hm
termination_by s.backlog now
decreasing_by exact backlog_tick_lt h hne

end Backlog

theorem rested_of_lag (h : s.Able now) (hz : ∀ i ∈ s.registered, s.lagOf now i = 0) :
    s.Rested now := by
  intro i hi d hd
  obtain ⟨j, hj, hd⟩ := Option.bind_eq_some_iff.mp hd
  have hz := hz i hi
  rw [lagOf, hj] at hz
  exact earlier_iff.mpr ⟨(h.jobs i hi j hj).kind d hd, Job.lag_eq_zero_iff.mp hz d hd⟩

-- A wait of zero means that a job is due.
theorem lagOf_pos_of_wait {micros : Int} (h : s.wait now = .ok micros) (hm : ¬0 < micros)
    (hp : 0 < s.timing.pollInterval) : ∃ i ∈ s.registered, 0 < s.lagOf now i := by
  obtain ⟨m, hm', rfl⟩ := Except.map_eq_ok_iff.mp h
  have hle := ((least_of_waitOver hm').le_iff 1).not.mp <| by omega
  simp only [not_and, not_forall] at hle
  obtain ⟨j, hj, d, hd, hlt⟩ := hle <| by omega
  obtain ⟨i, hi, hj⟩ := List.mem_filterMap.mp hj
  refine ⟨i, hi, ?_⟩
  rw [lagOf, hj, Option.elim_some, Job.lag_of_next hd]
  omega

-- The thread does go to sleep, unless a body exits. By induction on the backlog.
theorem asleep_of_settle {s : Scheduler} (h : s.Able now) (hp : 0 < s.timing.pollInterval)
    (hs : s.timing.pollInterval ≤ longestSleep) (ht : ∀ i ∈ s.registered, s.TameAt i) :
    (s.settle now).1.thread = .asleep := by
  have hkind : ∀ j ∈ s.handledJobs, ∀ d, j.next = some d → d.sameKind now := by
    intro j hj d hd
    obtain ⟨i, hi, hj⟩ := List.mem_filterMap.mp hj
    have hk := (h.jobs i hi j hj).kind d hd
    rw [sameKind, beq_iff_eq] at hk ⊢
    exact hk.symm
  obtain ⟨m, hw, hle⟩ := exists_wait hkind
  by_cases hm : 0 < m
  case pos =>
    rw [settle_of_wait hw hm, sleep, if_neg <| by omega]
  case neg =>
    obtain ⟨hup, hout, hidle, -⟩ := tick_catchesUp h
    have hok := hout.resolve_right <| by
      rintro ⟨-, i, hi, hwild⟩
      exact hwild <| ht i hi
    obtain ⟨i, hi, hpos⟩ := lagOf_pos_of_wait hw hm hp
    have hne : (s.tick now).2.2 ≠ .ok [] := fun he => by
      have := hidle.mp he i hi
      omega
    rcases he : s.tick now with ⟨after, notices, e | results⟩
    · rw [he] at hok
      cases hok
    · have hlt : after.backlog now < s.backlog now := by
        have := backlog_tick_lt h hne
        rwa [he] at this
      rw [he] at hup
      rw [settle_of_tick hw hm he, if_pos hlt]
      refine asleep_of_settle (hup.able h) (hup.timing ▸ hp) (hup.timing ▸ hs) fun i hi => ?_
      have hbecomes := (tended_tick s now).becomes
      rw [he] at hbecomes
      exact hbecomes.tameAt <| ht i <| hup.registered ▸ hi
termination_by s.backlog now

section Mixed

-- An occurrence that cannot be compared with the clock stops every round.
theorem tick_of_mixed (hr : s.registered = [i]) (hj : s.jobs[i]? = some j) (hd : j.next = some d)
    (hk : now.sameKind d = false) : s.tick now = (s, [], .error (.fault .mixedComparison)) := by
  have hbefore : now.before d = .error .mixedComparison := by rw [before, if_neg (by simp [hk])]
  have hset : s.setJob i j = s := by
    obtain ⟨hlt, rfl⟩ := List.getElem?_eq_some_iff.mp hj
    rw [setJob, List.set_getElem_self]
  rw [tick, hr]
  simp only [tickOver, hj, Job.handle, hd, hbefore, hset]

theorem ticks_of_mixed (n : Nat) (hr : s.registered = [i]) (hj : s.jobs[i]? = some j)
    (hd : j.next = some d) (hk : now.sameKind d = false) : s.ticks (List.replicate n now) = s := by
  induction n
  case zero => rfl
  case succ n hi =>
    rw [List.replicate_succ, ticks, List.foldl_cons, tick_of_mixed hr hj hd hk]
    exact hi

end Mixed

end Scheduler

-- Where there is room for a span after an instant, there is after every earlier one of its clock.
theorem Instant.exists_add {t b : Instant} {k : Int} (hk : 0 ≤ k) (ho : t.offset = now.offset)
    (hle : t.universal ≤ now.universal) (hb : now.add k = .ok b) : ∃ c, t.add k = .ok c := by
  have hbt := (of_ofTicks_eq_ok hb).1
  have hend := b.ticks_lt_endTicks
  have hbegin := t.dayMicros_le_ticks
  rw [universal, universal, ho] at hle
  obtain ⟨c, hc, -⟩ := ofTicks_eq_ok (t := t) (n := t.ticks + k) (by omega)
  exact ⟨c, hc⟩

open Scheduler Schedule

section CatchUp

variable {s : Scheduler}

-- A scheduler that is asked again and again at one instant reports occurrences for a number of
-- rounds, some of which a body may end that exits, and nothing from then on, when no job is due any
-- more. All occurrences of a job but the last were missed, and it runs at most once. While the
-- clock stands still, the thread goes to sleep only when no job is due, and it does come to that
-- where no body exits.
theorem catching_up_ends (ha : s.timing.Allows now)
    (hs : ∀ j ∈ s.jobs, ∀ x ∈ j.schedules, x.Made)
    (hk : ∀ i ∈ s.registered, ∀ d, s.nextOf i = some d → now.sameKind d)
    (hr : ∀ i ∈ s.registered, ∀ d due, s.nextOf i = some d → d.Reaches due →
      due.universal ≤ now.universal → ∃ b, due.add s.timing.smallestInterval = .ok b) :
    (∃ n, ∀ m, let t := s.ticks (List.replicate m now)
      ((t.tick now).2.2 = .ok ((history [now] t).map Prod.snd) ∨
        (t.tick now).2.2 = .error .exit ∧ ∃ i ∈ s.registered, ¬s.TameAt i) ∧
        ((t.tick now).2.2 = .ok [] ↔ n ≤ m) ∧ (n ≤ m → t.Rested now)) ∧
    (∀ n i, (s.ticks (List.replicate n now)).runsOf i ≤ s.runsOf i + 1 ∧
      (ofJob i <| history (List.replicate n now) s).Pairwise fun h _ => h.outcome = .missed) ∧
    ((s.settle now).1.thread = .asleep → (s.settle now).1.Rested now) ∧
    ((s.wake now).1.thread = .asleep → (s.wake now).1.Rested now) ∧
    (s.thread = .off → (s.start now).1.thread = .asleep → (s.start now).1.Rested now) ∧
    (0 < s.timing.pollInterval → s.timing.pollInterval ≤ longestSleep →
      (∀ i ∈ s.registered, s.TameAt i) → (s.settle now).1.thread = .asleep) := by
  have h : s.Able now := ⟨ha, fun i hi j hj => ⟨fun x hx => ?sound, fun d hd => ?kind,
    fun d due hd => ?room⟩⟩
  case sound => exact (hs j (List.mem_of_getElem? hj) x hx).sound
  case kind  => exact hk i hi d <| (nextOf_eq hj).trans hd
  case room  => exact hr i hi d due <| (nextOf_eq hj).trans hd
  obtain ⟨n, hbusy, hidle⟩ := exists_idle h
  have hup (m : Nat) := catchesUp_ticks h m
  have hable (m : Nat) : (s.ticks (List.replicate m now)).Able now := (hup m).able h
  have hzero (k : Nat) : ∀ i ∈ (s.ticks (List.replicate (n + k) now)).registered,
      (s.ticks (List.replicate (n + k) now)).lagOf now i = 0 := by
    intro i hi
    have hlag := (catchesUp_ticks (hable n) k).lag_le i
    rw [(hup _).registered, ← (hup n).registered] at hi
    obtain ⟨-, -, hnone, -⟩ := tick_catchesUp <| hable n
    rw [hnone.mp hidle i hi, ← ticks_add] at hlag
    exact Nat.le_zero.mp hlag
  refine ⟨⟨n, fun m => ?_⟩, fun n i => ⟨((hup n).descent i).runs_le, ((hup n).descent i).missed⟩,
    rested_of_settle, rested_of_wake, rested_of_start, asleep_of_settle h⟩
  obtain ⟨-, hout, hnone, -⟩ := tick_catchesUp <| hable m
  refine ⟨hout.imp_right fun ⟨he, i, hi, hwild⟩ => ⟨he, i, (hup m).registered ▸ hi,
    mt (becomes_ticks s _).tameAt hwild⟩, ⟨fun he => ?_, fun hm => ?_⟩, fun hm => ?_⟩
  · exact Nat.not_lt.mp fun hm => hbusy m hm he
  · obtain ⟨k, rfl⟩ := Nat.exists_eq_add_of_le hm
    exact hnone.mpr <| hzero k
  · obtain ⟨k, rfl⟩ := Nat.exists_eq_add_of_le hm
    exact rested_of_lag (hable _) (hzero k)

end CatchUp

-- An hourly job that was due at nine is brought up to half past twelve.
theorem catching_up_ends_of_hourly_job :
    let d : Date := ⟨2024, 1, 15, by decide, by decide, by decide, by decide, by decide, by decide⟩
    let nine : Instant := ⟨d, 9 * hourMicros, none, by decide⟩
    let now : Instant := ⟨d, 12 * hourMicros + 30 * minuteMicros, none, by decide⟩
    let schedule := (unrestricted ⟨.unix, 2024, 100, 900⟩).after (.add 1 "0")
    let job : Job :=
      { Job.new "a" (.function "backup") .unix [schedule] fun _ => .returns with next := some nine }
    let s : Scheduler := { idle .standard [job] with registered := [0] }
    (ofJob 0 <| history (List.replicate 4 now) s).map (·.outcome) = [.missed, .missed, .ran] ∧
    (∃ n, ∀ m, let t := s.ticks (List.replicate m now)
      ((t.tick now).2.2 = .ok ((history [now] t).map Prod.snd) ∨
        (t.tick now).2.2 = .error .exit ∧ ∃ i ∈ s.registered, ¬s.TameAt i) ∧
        ((t.tick now).2.2 = .ok [] ↔ n ≤ m) ∧ (n ≤ m → t.Rested now)) ∧
    (∀ n i, (s.ticks (List.replicate n now)).runsOf i ≤ s.runsOf i + 1 ∧
      (ofJob i <| history (List.replicate n now) s).Pairwise fun h _ => h.outcome = .missed) ∧
    ((s.settle now).1.thread = .asleep → (s.settle now).1.Rested now) ∧
    ((s.wake now).1.thread = .asleep → (s.wake now).1.Rested now) ∧
    (s.thread = .off → (s.start now).1.thread = .asleep → (s.start now).1.Rested now) ∧
    (0 < s.timing.pollInterval → s.timing.pollInterval ≤ longestSleep →
      (∀ i ∈ s.registered, s.TameAt i) → (s.settle now).1.thread = .asleep) := by
  intro d nine now schedule job s
  have hadd : ∃ b, now.add s.timing.smallestInterval = .ok b :=
    Except.exists_eq_ok_of_isSome (by decide +kernel)
  have ha : s.timing.Allows now :=
    ⟨by decide, hadd, Except.exists_eq_ok_of_isSome (by decide +kernel)⟩
  have hmade : ∀ j ∈ s.jobs, ∀ x ∈ j.schedules, x.Made := by
    simp only [s, job, idle, Job.new, List.forall_mem_singleton]
    exact ⟨⟨.unix, 2024, 100, 900⟩, none, _, rfl, [.add 1 "0"], rfl⟩
  have hnext : ∀ i ∈ s.registered, ∀ d, s.nextOf i = some d → d = nine := by
    simp [s, job, idle, nextOf]
  refine ⟨by decide +kernel, catching_up_ends ha hmade (fun i hi d hd => ?_)
    fun i hi d due hd hr hle => ?_⟩
  · rw [hnext i hi d hd]
    rfl
  · obtain ⟨b, hb⟩ := hadd
    rw [hnext i hi d hd] at hr
    have ho : due.offset = now.offset := hr.offset
    exact exists_add (by decide) ho hle hb

-- A job that is next due at an instant with an offset cannot be brought up to one without.
theorem catching_up_fails_across_offsets :
    let d : Date := ⟨2024, 1, 15, by decide, by decide, by decide, by decide, by decide, by decide⟩
    let d' : Date := ⟨2025, 1, 1, by decide, by decide, by decide, by decide, by decide, by decide⟩
    let aware : Instant := ⟨d, 8 * hourMicros, some 0, by decide⟩
    let due : Instant := ⟨d', 9 * hourMicros, some 0, by decide⟩
    let now : Instant := ⟨d, 8 * hourMicros, none, by decide⟩
    ∃ schedule, Schedule.read? ⟨.unix, 2024, 100, 900⟩ (some "0 9 1 1 *") = .ok schedule ∧
      schedule.next? aware = .ok (some due) ∧
      let job : Job :=
        { Job.new "a" (.own "Report") .unix [schedule] fun _ => .returns with next := some due }
      let s : Scheduler := { idle .standard [job] with registered := [0] }
      s.timing.Allows now ∧ (∃ b, due.add s.timing.smallestInterval = .ok b) ∧
        ∀ n,
          ((s.ticks (List.replicate n now)).tick now).2.2 = .error (.fault .mixedComparison) := by
  intro d d' aware due now
  have hfound : ((Schedule.read? ⟨.unix, 2024, 100, 900⟩ (some "0 9 1 1 *")).toOption.bind fun x =>
      (x.next? aware).toOption) = some (some due) := by decide +kernel
  obtain ⟨schedule, hx, hnext⟩ := Option.bind_eq_some_iff.mp hfound
  have ha : Timing.standard.Allows now :=
    ⟨by decide, Except.exists_eq_ok_of_isSome (by decide +kernel),
      Except.exists_eq_ok_of_isSome (by decide +kernel)⟩
  have hdue : ∃ b, due.add Timing.standard.smallestInterval = .ok b :=
    Except.exists_eq_ok_of_isSome (by decide +kernel)
  refine ⟨schedule, Except.toOption_eq_some_iff.mp hx, Except.toOption_eq_some_iff.mp hnext, ?_⟩
  intro job s
  refine ⟨ha, hdue, fun n => ?_⟩
  rw [ticks_of_mixed (s := s) n rfl rfl rfl rfl, tick_of_mixed (s := s) rfl rfl rfl rfl]

end Cron
