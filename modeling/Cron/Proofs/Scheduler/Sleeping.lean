import Cron.Proofs.Scheduler.Answers

-- How long a scheduler waits, and what there is to do. A scheduler that polls does not wait exactly
-- if something is due, and a round then answers of it, provided that the calendar has room for it
-- and that no body exits.

namespace Cron

open Instant

variable {now d : Instant} {i : Nat} {m w ahead : Int} {js : List Job} {P : Instant → Prop}

theorem Instant.sameKind_comm {a b : Instant} : a.sameKind b = b.sameKind a :=
  Bool.beq_comm

namespace Scheduler

variable {s : Scheduler}

section Places

theorem forall_next_iff :
    (∀ j ∈ s.handledJobs, ∀ d, j.next = some d → P d) ↔
      ∀ i ∈ s.registered, ∀ d, s.nextOf i = some d → P d := by
  constructor
  · intro h i hi d hd
    obtain ⟨j, hj, hd⟩ := Option.bind_eq_some_iff.mp hd
    exact h j (mem_handledJobs hi hj) d hd
  · intro h j hj d hd
    obtain ⟨i, hi, hj⟩ := List.mem_filterMap.mp hj
    exact h i hi d <| Option.bind_eq_some_iff.mpr ⟨j, hj, hd⟩

theorem dueOf_eq_some_iff :
    s.dueOf now i = some d ↔ s.nextOf i = some d ∧ d.universal ≤ now.universal := by
  cases hj : s.jobs[i]?
  case none   => simp [dueOf, nextOf, hj]
  case some j => rw [dueOf_eq hj, Job.due?_eq_some_iff, nextOf, hj, Option.bind_some]

end Places

-- The times from `now` to the next occurrences of the jobs that are registered.
def aheads (now : Instant) (s : Scheduler) : Set Int :=
  {ahead | ∃ i ∈ s.registered, ∃ d, s.nextOf i = some d ∧ d.since now = .ok ahead}

-- How long a scheduler waits: not beyond any next occurrence, and not at all if one is due. Unless
-- it need not wait, it waits for the first of them, or for the time after which it polls anyway.
structure Waits (now : Instant) (s : Scheduler) (m : Int) : Prop where
  nonneg      : 0 ≤ m
  le_poll     : m ≤ s.timing.pollInterval
  le_ahead    : ∀ ahead ∈ s.aheads now, 0 < ahead → m ≤ ahead
  eq_zero_iff : m = 0 ↔ s.timing.pollInterval = 0 ∨ ∃ i ∈ s.registered, ∃ d, s.dueOf now i = some d
  isLeast     : m ≠ 0 → IsLeast (insert s.timing.pollInterval (s.aheads now)) m

section Aheads

variable (hk : ∀ i ∈ s.registered, ∀ d, s.nextOf i = some d → d.sameKind now)

include hk

theorem forall_aheads_iff {Q : Int → Prop} :
    (∀ ahead ∈ s.aheads now, Q ahead) ↔
      ∀ i ∈ s.registered, ∀ d, s.nextOf i = some d → Q (d.universal - now.universal) := by
  constructor
  · intro h i hi d hd
    exact h _ ⟨i, hi, d, hd, since_eq_ok_iff.mpr ⟨hk i hi d hd, rfl⟩⟩
  · rintro h ahead ⟨i, hi, d, hd, ha⟩
    obtain ⟨-, rfl⟩ := since_eq_ok_iff.mp ha
    exact h i hi d hd

-- Something is due if a next occurrence does not lie ahead.
theorem exists_due_iff :
    (∃ i ∈ s.registered, ∃ d, s.dueOf now i = some d) ↔ ∃ ahead ∈ s.aheads now, ahead ≤ 0 := by
  have hall := forall_aheads_iff hk (Q := fun ahead => ¬ahead ≤ 0)
  rw [← not_iff_not]
  push Not at hall ⊢
  rw [hall]
  refine forall₂_congr fun i _ => forall_congr' fun d => ?_
  rw [Ne, dueOf_eq_some_iff, not_and]
  refine imp_congr_right fun _ => ?_
  omega

end Aheads

theorem Least.isLeast (h : Least now s.timing.pollInterval s.handledJobs m) :
    IsLeast (insert s.timing.pollInterval (s.aheads now)) m := by
  have hk := forall_next_iff.mp h.kind
  have hle (bound : Int) : bound ≤ m ↔
      ∀ n ∈ insert s.timing.pollInterval (s.aheads now), bound ≤ n := by
    rw [h.le_iff, forall_next_iff, Set.forall_mem_insert, forall_aheads_iff hk]
  refine ⟨?_, (hle m).mp <| Int.le_refl m⟩
  -- A bound that is not attained can be raised.
  by_contra hm
  have hraised : m + 1 ≤ m := (hle _).mpr fun n hn =>
    lt_of_le_of_ne ((hle m).mp (Int.le_refl m) n hn) fun he => hm <| he ▸ hn
  omega

theorem waits_of_wait (h : s.wait now = .ok m) (hp : 0 ≤ s.timing.pollInterval) :
    s.Waits now m := by
  obtain ⟨n, hn, rfl⟩ := Except.map_eq_ok_iff.mp h
  have hl := least_of_waitOver hn
  have hleast := hl.isLeast
  obtain ⟨hpoll, haheads⟩ := Set.forall_mem_insert.mp hleast.2
  refine ⟨by omega, by omega, fun ahead ha hpos => ?_, ?_, fun hne => ?_⟩
  · have := haheads ahead ha
    omega
  · rw [exists_due_iff <| forall_next_iff.mp hl.kind]
    constructor
    · intro hzero
      rcases hleast.1 with he | hmem
      · exact .inl (by omega)
      · exact .inr ⟨n, hmem, by omega⟩
    · rintro (hzero | ⟨ahead, ha, hle⟩)
      · omega
      · have := haheads ahead ha
        omega
  · rwa [max_eq_right (by omega)]

end Scheduler

open Scheduler Schedule

section Sleeping

variable {s : Scheduler}

-- A scheduler of which all instants can be compared with the clock waits until the first of its
-- jobs is due, and no longer than until it polls. If it polls at all, it does not wait exactly if a
-- round answers of some job, as long as the calendar has room for what is due and no body exits;
-- and while it waits, a round answers of none.
theorem sleeping_agrees_with_rounds (hp : 0 ≤ s.timing.pollInterval)
    (hs : ∀ j ∈ s.jobs, ∀ x ∈ j.schedules, x.Made) (hr : s.registered.Nodup)
    (hk : ∀ i ∈ s.registered, ∀ d, s.nextOf i = some d → now.sameKind d) :
    ∃ m, s.wait now = .ok m ∧ s.Waits now m ∧
      (0 < s.timing.pollInterval →
        ((∀ i ∈ s.registered, s.TameAt i) →
          ((∃ results, (s.tick now).2.2 = .ok results ∧ results ≠ []) ↔
            m = 0 ∧ ∀ i ∈ s.registered, ∀ d, s.dueOf now i = some d → s.timing.Room now d)) ∧
        (0 < m → (s.tick now).2.2 = .ok [])) := by
  have hk' : ∀ i ∈ s.registered, ∀ d, s.nextOf i = some d → d.sameKind now :=
    fun i hi d hd => sameKind_comm.trans <| hk i hi d hd
  obtain ⟨m, hm, -⟩ := exists_wait <| forall_next_iff.mpr hk'
  have hw := waits_of_wait hm hp
  refine ⟨m, hm, hw, fun hpos => ?_⟩
  have hzero : m = 0 ↔ ∃ i ∈ s.registered, ∃ d, s.dueOf now i = some d :=
    hw.eq_zero_iff.trans <| or_iff_right hpos.ne'
  have hempty {results : List Handled} (hresults : (s.tick now).2.2 = .ok results) :
      results = [] ↔ m ≠ 0 := by
    have hdue := tickOver_due hr hresults
    rw [← List.map_eq_nil_iff, hdue, List.filterMap_eq_nil_iff, Ne, hzero]
    simp [Option.eq_none_iff_forall_ne_some]
  refine ⟨fun ht => ?_, fun hm => ?_⟩
  · rw [← tickOver_answers (fun j hj x hx => (hs j hj x hx).sound) hk ht hr]
    constructor
    · rintro ⟨results, hresults, hne⟩
      exact ⟨not_not.mp <| mt (hempty hresults).mpr hne, results, hresults⟩
    · rintro ⟨hm, results, hresults⟩
      exact ⟨results, hresults, mt (hempty hresults).mp <| not_not.mpr hm⟩
  · -- No job is due, so that the round looks at all of them.
    have hearlier (i) (hi : i ∈ s.registered) (d) (hd : s.nextOf i = some d) : now.Earlier d := by
      refine earlier_iff.mpr ⟨hk i hi d hd, Int.not_le.mp fun hle => hm.ne' <| hzero.mpr ?_⟩
      exact ⟨i, hi, d, dueOf_eq_some_iff.mpr ⟨hd, hle⟩⟩
    have hanswers : ∀ i ∈ s.registered, s.Answers now i := fun i hi j hj =>
      ⟨none, by rw [Job.handle_of_earlier fun d hd => hearlier i hi d <| (nextOf_eq hj).trans hd]⟩
    obtain ⟨results, hresults⟩ := (tickOver_answers_iff hr).mpr hanswers
    rw [tick, hresults, (hempty hresults).mpr hm.ne']

end Sleeping

-- At nine, when a job is due: there is no wait, and the round answers of it alone.
theorem sleeping_agrees_with_rounds_at_nine :
    let d : Date := ⟨2024, 1, 15, by decide, by decide, by decide, by decide, by decide, by decide⟩
    let nine : Instant := ⟨d, 9 * hourMicros, none, by decide⟩
    let ten : Instant := ⟨d, 10 * hourMicros, none, by decide⟩
    let job (name : Codes) (next : Instant) : Job :=
      { Job.new name (.own "Report") .unix [unrestricted ⟨.unix, 2024, 100, 900⟩]
          fun _ => .returns with next := some next }
    let s : Scheduler :=
      { idle Timing.standard [job "a" ten, job "b" nine] with registered := [1, 0] }
    ∃ m, s.wait nine = .ok m ∧ s.Waits nine m ∧ m = 0 ∧
      ∃ results, (s.tick nine).2.2 = .ok results ∧ results ≠ [] := by
  intro d nine ten job s
  have hunrestricted : (unrestricted ⟨.unix, 2024, 100, 900⟩).Made :=
    ⟨⟨.unix, 2024, 100, 900⟩, none, _, rfl, [], rfl⟩
  have hmade : ∀ j ∈ s.jobs, ∀ x ∈ j.schedules, x.Made := by
    simp [s, job, idle, Job.new, hunrestricted]
  have hkind : ∀ i ∈ s.registered, ∀ d, s.nextOf i = some d → nine.sameKind d := by
    simp [s, job, idle, nextOf, Instant.sameKind, nine, ten]
  have hlocal : s.Local :=
    local_of_made hmade (by simp [s, job, idle, Job.new, nine, ten]) (by decide)
  have hroomy : s.timing.Roomy nine := ⟨by decide,
    Except.exists_eq_ok_of_isSome (by decide +kernel),
    Except.exists_eq_ok_of_isSome (by decide +kernel)⟩
  obtain ⟨m, hm, hw, hpoll⟩ :=
    sleeping_agrees_with_rounds (s := s) (by decide) hmade (by decide) hkind
  have hzero : m = 0 := hw.eq_zero_iff.mpr <| .inr ⟨1, by decide, nine, by decide⟩
  have htame : ∀ i ∈ s.registered, s.TameAt i := by
    simp [s, job, idle, TameAt, Job.Tame, Job.new]
  exact ⟨m, hm, hw, hzero, ((hpoll (by decide)).1 htame).mpr
    ⟨hzero, fun _ _ _ hd => hlocal.room rfl hroomy hd⟩⟩

-- With a missed window of three thousand years, which is accepted, a scheduler does not wait for a
-- job that is due, and yet no round answers of it.
theorem sleepless_without_answer :
    let d : Date := ⟨2024, 1, 15, by decide, by decide, by decide, by decide, by decide, by decide⟩
    let nine : Instant := ⟨d, 9 * hourMicros, none, by decide⟩
    ∃ settings timing schedule,
      Settings.ofEntries [("missed_window_seconds", "1e11")] = .ok settings ∧
      settings.timing = .ok timing ∧ 0 < timing.pollInterval ∧
      Schedule.read? ⟨.unix, 2024, 100, 900⟩ (some "0 9 * * *") = .ok schedule ∧
      schedule.next? nine = .ok (some nine) ∧
      let job : Job :=
        { Job.new "a" (.function "backup") .unix [schedule] fun _ => .returns with
          next := some nine }
      let s : Scheduler := { idle timing [job] with registered := [0] }
      s.wait nine = .ok 0 ∧ ¬∃ results, (s.tick nine).2.2 = .ok results ∧ results ≠ [] := by
  intro d nine
  let timing : Timing := { Timing.standard with missedWindow := 100000000000000000 }
  have ha : Settings.ofEntries [("missed_window_seconds", "1e11")] =
      .ok { Settings.standard with missedWindow := Double.ofInt 100000000000 } :=
    Except.toOption_eq_some_iff.mp (by decide +kernel)
  have ht : { Settings.standard with missedWindow := Double.ofInt 100000000000 }.timing =
      .ok timing := Except.toOption_eq_some_iff.mp (by decide +kernel)
  have hfound : ((Schedule.read? ⟨.unix, 2024, 100, 900⟩ (some "0 9 * * *")).toOption.bind fun x =>
      (x.next? nine).toOption) = some (some nine) := by decide +kernel
  obtain ⟨schedule, hx, hnext⟩ := Option.bind_eq_some_iff.mp hfound
  have hback : nine.add (-timing.missedWindow) = .error .pastCalendar := by decide +kernel
  have hbefore : nine.before nine = .ok false := before_eq_ok_false.mpr ⟨rfl, Int.le_refl _⟩
  refine ⟨_, timing, schedule, ha, ht, by decide, Except.toOption_eq_some_iff.mp hx,
    Except.toOption_eq_some_iff.mp hnext, ?_⟩
  intro job s
  have hwait : s.wait nine = .ok 0 := by
    have hjobs : s.handledJobs = [job] := rfl
    have hahead : nine.since nine = .ok 0 := since_eq_ok_iff.mpr ⟨rfl, Int.sub_self _⟩
    rw [wait, hjobs, waitOver_cons_of_some (d := nine) rfl, hahead]
    rfl
  have htick : (s.tick nine).2.2 = .error (.fault .pastCalendar) := by
    simp only [tick, tickOver, s, job, idle, Job.handle, List.getElem?_cons_zero, hbefore, hback]
  rw [htick]
  exact ⟨hwait, by simp⟩

end Cron
