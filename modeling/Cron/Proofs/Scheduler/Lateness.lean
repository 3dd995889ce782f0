import Cron.Proofs.Scheduler.Treatment
import Cron.Proofs.Settings.Accepted

-- Late jobs. Of a job that is due, a round runs the body once if the job is late by less than the
-- missed window, and otherwise not at all; so without any window no job runs, however punctual.

namespace Cron

open Instant

variable {b d now due : Instant} {timing : Timing} {j j' : Job} {i : Nat} {late window : Int}

theorem Instant.since_of_sameKind (h : now.sameKind d) :
    now.since d = .ok (now.universal - d.universal) :=
  since_eq_ok_iff.mpr ⟨h, rfl⟩

namespace Notice

-- The bodies that are called.
def calls (ns : List Notice) : List Codes := ns.filterMap call?

end Notice

namespace Job

-- A run calls the body once, also where the calendar has no room for the next.
theorem calls_runDue (timing : Timing) (now due : Instant) (j : Job) :
    Notice.calls (j.runDue timing now due).2.1 = [j.bodyName] := by
  rw [runDue]
  split <;> rfl

-- What a round makes of a job, by how late the job is: what is answered of it, which bodies are
-- called, and the job after it.
inductive Judged (window : Int) (now : Instant) (j : Job) : Option Handled → List Codes → Job → Prop
  | early : (∀ d, j.next = some d → now.Earlier d) → Judged window now j none [] j
  | run {d : Instant} {late : Int} {handled : Handled} {j' : Job} :
    j.next = some d → now.since d = .ok late → 0 ≤ late → late < window →
    handled.due = d → handled.outcome ≠ .missed → j'.runCount = j.runCount + 1 →
    Judged window now j (some handled) [j.bodyName] j'
  | missed {d : Instant} {late : Int} {handled : Handled} {j' : Job} :
    j.next = some d → now.since d = .ok late → 0 ≤ late → window ≤ late →
    handled.due = d → handled.outcome = .missed → j'.runCount = j.runCount →
    Judged window now j (some handled) [] j'

theorem handle_judged {r : Option Handled} (h : ∀ x ∈ j.schedules, x.Sound)
    (hr : (j.handle timing now).2.2 = .ok r) :
    j.Judged timing.missedWindow now r (Notice.calls (j.handle timing now).2.1)
      (j.handle timing now).1 := by
  have hl := looked_handle timing now j
  generalize j.handle timing now = x at hl hr
  cases hl
  case idle he =>
    cases hr
    exact .early he
  case fault => cases hr
  case run due oldest hd hbefore ho hlt =>
    obtain ⟨handled, hrun, rfl⟩ := Except.map_eq_ok_iff.mp hr
    obtain ⟨hk, hle⟩ := before_eq_ok_false.mp hbefore
    have hu := (universal_of_add ho).1
    rcases j.runDue_reports timing now due with ⟨_, he, hdue, houtcome⟩ | ⟨he, -⟩
    · cases he.symm.trans hrun
      rw [calls_runDue]
      exact .run hd (since_of_sameKind hk) (by omega) (by omega) hdue houtcome (runCount_runDue ..)
    · cases he.symm.trans hrun
  case miss due oldest hd hbefore ho hle' =>
    obtain ⟨hk, hle⟩ := before_eq_ok_false.mp hbefore
    have hu := (universal_of_add ho).1
    cases hb : due.add timing.smallestInterval
    case error f =>
      rw [miss_of_error hb] at hr
      cases hr
    case ok b =>
      obtain ⟨x, hx, -⟩ := earliest_reaches h b
      rw [miss_eq hb hx] at hr ⊢
      cases hr
      exact .missed hd (since_of_sameKind hk) (by omega) (by omega) rfl rfl rfl

-- A job can be looked at if instants can be compared and the calendar has room after a miss.
theorem handle_answers_iff_late (h : ∀ x ∈ j.schedules, x.Sound) (ht : j.Tame)
    (hw : 0 ≤ timing.missedWindow)
    (hback : ∃ oldest, now.add (-timing.missedWindow) = .ok oldest) :
    (∃ r, (j.handle timing now).2.2 = .ok r) ↔
      ∀ d, j.next = some d → ∃ late, now.since d = .ok late ∧
        (timing.missedWindow ≤ late → ∃ b, d.add timing.smallestInterval = .ok b) := by
  rw [handle_answers_iff h ht]
  refine forall₂_congr fun d _ => ?_
  constructor
  · rintro ⟨hk, hroom⟩
    refine ⟨_, since_of_sameKind hk, fun hle => (hroom (by omega)).ahead ?_⟩
    obtain ⟨oldest, ho⟩ := hback
    obtain ⟨hu, hoffset⟩ := universal_of_add ho
    exact ⟨oldest, ho, by rwa [Instant.sameKind, hoffset], by omega⟩
  · rintro ⟨late, hlate, hroom⟩
    obtain ⟨hk, rfl⟩ := since_eq_ok_iff.mp hlate
    refine ⟨hk, fun _ => ⟨hback, fun hmissed => hroom ?_⟩⟩
    obtain ⟨oldest, ho, -, hle⟩ := hmissed
    have hu := (universal_of_add ho).1
    omega

end Job

open Scheduler Schedule

section Lateness

variable {entries : Entries} {settings : Settings} {s : Scheduler}

-- With settings that were accepted: unless a body exits, a round answers if and only if all
-- instants can be compared and the calendar has room after what was missed. If it answers, each
-- registered job is judged by how late it is, the others left alone, and the bodies of those that
-- are late by less than the window are called, in the order of registration.
theorem lateness_decides (ha : Settings.ofEntries entries = .ok settings)
    (ht : settings.timing = .ok s.timing) (hs : ∀ j ∈ s.jobs, ∀ x ∈ j.schedules, x.Made)
    (hr : s.registered.Nodup) (hback : ∃ oldest, now.add (-s.timing.missedWindow) = .ok oldest) :
    ((∀ i ∈ s.registered, s.TameAt i) → ((∃ results, (s.tick now).2.2 = .ok results) ↔
      ∀ i ∈ s.registered, ∀ d, s.nextOf i = some d → ∃ late, now.since d = .ok late ∧
        (s.timing.missedWindow ≤ late → ∃ b, d.add s.timing.smallestInterval = .ok b))) ∧
    ∀ results, (s.tick now).2.2 = .ok results →
      ∃ (answers : Nat → Option Handled) (calls : Nat → List Codes),
        results = s.registered.filterMap answers ∧
        Notice.calls (s.tick now).2.1 = s.registered.flatMap calls ∧
        (∀ i ∈ s.registered, ∀ j, s.jobs[i]? = some j → ∃ j', (s.tick now).1.jobs[i]? = some j' ∧
          j.Judged s.timing.missedWindow now (answers i) (calls i) j') ∧
        ∀ i, i ∉ s.registered → (s.tick now).1.jobs[i]? = s.jobs[i]? := by
  have hw := ((Settings.accepted ha).timing_nonneg ht).1
  have hsound {i : Nat} {j : Job} (hj : s.jobs[i]? = some j) : ∀ x ∈ j.schedules, x.Sound :=
    fun x hx => (hs j (List.mem_of_getElem? hj) x hx).sound
  constructor
  case left =>
    intro htame
    rw [tick, tickOver_answers_iff hr]
    refine forall₂_congr fun i hi => ?_
    cases hj : s.jobs[i]?
    case none => simp [Answers, nextOf, hj]
    case some j =>
      rw [answers_iff hj, nextOf_eq hj]
      exact Job.handle_answers_iff_late (hsound hj) (htame i hi j hj) hw hback
  case right =>
    intro results hresults
    have hall := (tickOver_answers_iff hr).mp ⟨results, hresults⟩
    have htick : s.tick now = _ := tickOver_eq hr hall
    rw [htick] at hresults ⊢
    cases hresults
    refine ⟨s.answerOf now, fun i => Notice.calls (s.reportOf now i), rfl, List.filterMap_flatMap,
      fun i hi j hj => ⟨_, getElem?_jobsAfter_of_mem hi hj, ?_⟩,
      fun i hi => getElem?_jobsAfter_of_not_mem hi⟩
    obtain ⟨r, hr⟩ := (answers_iff hj).mp (hall i hi)
    dsimp only
    rw [answerOf_eq hj hr, reportOf_eq hj]
    exact Job.handle_judged (hsound hj) hr

end Lateness

-- With a missed window of ten minutes, at ten past nine: a job that is due just then runs, and one
-- that was due at a minute past nine fails; one that was due at nine has missed its occurrence.
theorem lateness_decides_with_short_window :
    let d : Date := ⟨2024, 1, 15, by decide, by decide, by decide, by decide, by decide, by decide⟩
    let nine : Instant := ⟨d, 9 * hourMicros, none, by decide⟩
    let later : Instant := ⟨d, 9 * hourMicros + minuteMicros, none, by decide⟩
    let now : Instant := ⟨d, 9 * hourMicros + 10 * minuteMicros, none, by decide⟩
    let job (name : Codes) (ending : Ending) (next : Instant) : Job :=
      { Job.new name (.own "Report") .unix [unrestricted ⟨.unix, 2024, 100, 900⟩]
          fun _ => ending with next := some next }
    let a := job "a" .returns now
    let b := job "b" .returns nine
    let c := job "c" (.raises "no") later
    ∃ settings timing,
      Settings.ofEntries [("missed_window_seconds", "6e2")] = .ok settings ∧
      settings.timing = .ok timing ∧
      let s : Scheduler := { idle timing [a, b, c] with registered := [1, 2, 0] }
      ∃ (results : List Handled) (answers : Nat → Option Handled) (calls : Nat → List Codes)
        (a' b' c' : Job),
        (s.tick now).2.2 = .ok results ∧ results = [1, 2, 0].filterMap answers ∧
        Notice.calls (s.tick now).2.1 = [1, 2, 0].flatMap calls ∧
        (s.tick now).1.jobs[0]? = some a' ∧ (s.tick now).1.jobs[1]? = some b' ∧
        (s.tick now).1.jobs[2]? = some c' ∧
        a.Judged timing.missedWindow now (answers 0) (calls 0) a' ∧
        b.Judged timing.missedWindow now (answers 1) (calls 1) b' ∧
        c.Judged timing.missedWindow now (answers 2) (calls 2) c' ∧
        Notice.calls (s.tick now).2.1 = ["c", "a"] := by
  intro d nine later now job a b c
  let timing : Timing := { Timing.standard with missedWindow := 600000000 }
  have ha : Settings.ofEntries [("missed_window_seconds", "6e2")] =
      .ok { Settings.standard with missedWindow := Double.ofInt 600 } :=
    Except.toOption_eq_some_iff.mp (by decide +kernel)
  have ht : { Settings.standard with missedWindow := Double.ofInt 600 }.timing = .ok timing :=
    Except.toOption_eq_some_iff.mp (by decide +kernel)
  refine ⟨_, timing, ha, ht, ?_⟩
  intro s
  have hunrestricted : (unrestricted ⟨.unix, 2024, 100, 900⟩).Made :=
    ⟨⟨.unix, 2024, 100, 900⟩, none, _, rfl, [], rfl⟩
  have hmade : ∀ j ∈ s.jobs, ∀ x ∈ j.schedules, x.Made := by
    simp [s, a, b, c, job, idle, Job.new, hunrestricted]
  have hback : ∃ oldest, now.add (-timing.missedWindow) = .ok oldest :=
    Except.exists_eq_ok_of_isSome (by decide +kernel)
  have hresults : ∃ results, (s.tick now).2.2 = .ok results :=
    Except.exists_eq_ok_of_isSome (by decide +kernel)
  obtain ⟨results, hresults⟩ := hresults
  obtain ⟨answers, calls, hr, hcalls, hjobs, -⟩ :=
    (lateness_decides (s := s) ha ht hmade (by decide) hback).2 results hresults
  obtain ⟨a', ha', hja⟩ := hjobs 0 (by decide) a rfl
  obtain ⟨b', hb', hjb⟩ := hjobs 1 (by decide) b rfl
  obtain ⟨c', hc', hjc⟩ := hjobs 2 (by decide) c rfl
  exact ⟨results, answers, calls, a', b', c', hresults, hr, hcalls, ha', hb', hc', hja, hjb, hjc,
    by decide +kernel⟩

-- With no missed window at all, which is accepted, a job does not run that is looked at when it is
-- due.
theorem punctual_job_is_missed :
    let d : Date := ⟨2024, 1, 15, by decide, by decide, by decide, by decide, by decide, by decide⟩
    let nine : Instant := ⟨d, 9 * hourMicros, none, by decide⟩
    ∃ settings timing schedule,
      Settings.ofEntries [("missed_window_seconds", "0")] = .ok settings ∧
      settings.timing = .ok timing ∧
      Schedule.read? ⟨.unix, 2024, 100, 900⟩ (some "0 9 * * *") = .ok schedule ∧
      schedule.next? nine = .ok (some nine) ∧
      let job : Job :=
        { Job.new "a" (.function "backup") .unix [schedule] fun _ => .returns with
          next := some nine }
      let s : Scheduler := { idle timing [job] with registered := [0] }
      (∃ handled, (s.tick nine).2.2 = .ok [handled] ∧ handled.due = nine ∧
        handled.outcome = .missed) ∧
      Notice.calls (s.tick nine).2.1 = [] ∧ (s.tick nine).1.runsOf 0 = 0 := by
  intro d nine
  let timing : Timing := { Timing.standard with missedWindow := 0 }
  have ha : Settings.ofEntries [("missed_window_seconds", "0")] =
      .ok { Settings.standard with missedWindow := Double.ofInt 0 } :=
    Except.toOption_eq_some_iff.mp (by decide +kernel)
  have ht : { Settings.standard with missedWindow := Double.ofInt 0 }.timing = .ok timing :=
    Except.toOption_eq_some_iff.mp (by decide +kernel)
  have hfound : ((Schedule.read? ⟨.unix, 2024, 100, 900⟩ (some "0 9 * * *")).toOption.bind fun x =>
      (x.next? nine).toOption) = some (some nine) := by decide +kernel
  obtain ⟨schedule, hx, hnext⟩ := Option.bind_eq_some_iff.mp hfound
  have hx := Except.toOption_eq_some_iff.mp hx
  refine ⟨_, timing, schedule, ha, ht, hx, Except.toOption_eq_some_iff.mp hnext, ?_⟩
  intro job s
  have hsound : ∀ x ∈ job.schedules, x.Sound :=
    List.forall_mem_singleton.mpr <| Made.sound ⟨_, _, _, hx, [], rfl⟩
  obtain ⟨b, hb⟩ : ∃ b, nine.add timing.smallestInterval = .ok b :=
    Except.exists_eq_ok_of_isSome (by decide +kernel)
  obtain ⟨o, ho, -⟩ := Job.earliest_reaches hsound b
  have hlate : ¬nine.universal - nine.universal < timing.missedWindow := by decide +kernel
  have hjob : job.handle timing nine = ({ job with last := some b, next := o },
      [.missed "a" nine], .ok (some ⟨"a", .missed, nine, o, none⟩)) := by
    have hd : job.next = some nine := rfl
    have hback : nine.add (-timing.missedWindow) = .ok nine := add_zero nine
    rw [Job.handle_of_due hd (NotLater.refl nine) hback, if_neg hlate, Job.miss_eq hb ho]
    rfl
  have htick : s.tick nine = (s.setJob 0 { job with last := some b, next := o },
      [.missed "a" nine], .ok [⟨"a", .missed, nine, o, none⟩]) := by
    simp only [tick, tickOver, s, idle, List.getElem?_cons_zero, hjob]
    rfl
  rw [htick]
  exact ⟨⟨_, rfl, rfl, rfl⟩, rfl, rfl⟩

end Cron
