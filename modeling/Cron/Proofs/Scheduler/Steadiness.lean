import Cron.Proofs.Scheduler.Answers

-- A scheduler whose instants have no offset answers, and its thread does not stop, whatever it is
-- asked for while the calendar leaves room.

namespace Cron

open Instant

variable {now clock d : Instant} {i : Nat} {is : List Nat} {j : Job} {micros : Int}

-- What happens to a scheduler: it is asked for something, or its thread has slept long enough.
inductive Event
  | asked (x : Operation)
  | woken (clock : Instant)

-- Only instants without an offset are given.
def Operation.Local : Operation → Prop
  | .add clock _ from? | .addAndStart clock _ from? =>
    clock.offset = none ∧ ∀ t, from? = some t → t.offset = none
  | .recompute _ t | .tick t | .start t => t.offset = none
  | .remove _ | .clear | .shutdown => True

namespace Event

def Local : Event → Prop
  | asked x => x.Local
  | woken clock => clock.offset = none

def clock? : Event → Option Instant
  | asked x => x.clock?
  | woken clock => some clock

end Event

namespace Scheduler

def undergo (s : Scheduler) : Event → Scheduler
  | .asked x => s.after x
  | .woken clock => (s.wake clock).1

def undergoAll (s : Scheduler) (es : List Event) : Scheduler := es.foldl undergo s

variable {s s' s'' : Scheduler} {clock? : Option Instant} {x : Operation} {e : Event}
variable {es : List Event}

-- What becomes of a scheduler that works at an instant, or at none: it does not stop with a fault
-- where its times fit the instant.
structure Kept (clock? : Option Instant) (s s' : Scheduler) : Prop where
  timing  : s'.timing = s.timing
  becomes : s.Becomes s'
  known   : s'.Local
  healthy : (∀ clock, clock? = some clock → s.timing.Fits clock) → s.status ≠ .error →
    s'.status ≠ .error

namespace Kept

theorem of_status_eq (h : s'.Local) (ht : s'.timing = s.timing) (ha : s.Becomes s')
    (he : s'.status = s.status) : Kept clock? s s' :=
  ⟨ht, ha, h, fun _ => he ▸ id⟩

theorem refl (h : s.Local) : Kept clock? s s := of_status_eq h rfl (.refl s) rfl

theorem trans (h : Kept clock? s s') (h' : Kept clock? s' s'') : Kept clock? s s'' where
  timing          := h'.timing.trans h.timing
  becomes         := h.becomes.trans h'.becomes
  known           := h'.known
  healthy hf hok  := h'.healthy (h.timing ▸ hf) <| h.healthy hf hok

end Kept

theorem Tended.kept (h : Tended s s') (hl : s'.Local) : Kept clock? s s' :=
  .of_status_eq hl h.timing h.becomes h.status

-- A stop is a fault, which does not come about where there is room.
theorem Local.kept_stop (h : s.Local) (hf : ¬s.timing.Fits now) : Kept (some now) s s.stop.1 where
  timing      := rfl
  becomes     := .refl s
  known       := ⟨h.jobs, h.nodup⟩
  healthy hf' := absurd (hf' now rfl) hf

-- A body that exits is no fault.
theorem Local.kept_halt {e : Halt} (h : s.Local)
    (hf : ∀ f, e = .fault f → ¬s.timing.Fits now) : Kept (some now) s (s.halt e).1 := by
  cases e
  case fault f => exact h.kept_stop (hf f rfl)
  case exit    => exact .of_status_eq ⟨h.jobs, h.nodup⟩ rfl (.refl s) rfl

theorem Local.kept_sleep (h : s.Local) (hm : s.timing.Fits now → micros ≤ longestSleep)
    (thread : Thread) (notice : Notice) : Kept (some now) s (s.sleep micros thread notice).1 := by
  rw [sleep]
  split
  case isTrue hlt => exact h.kept_stop fun hf => Int.not_lt.mpr (hm hf) hlt
  case isFalse    => exact .of_status_eq ⟨h.jobs, h.nodup⟩ rfl (.refl s) rfl

section Clock

variable (hnow : now.offset = none)

include hnow

theorem Local.kept_tick (h : s.Local) : Kept (some now) s (s.tick now).1 :=
  (tended_tick s now).kept <| h.tickOver hnow s.registered

theorem Local.tick_answers (h : s.Local) (ht : ∀ i ∈ s.registered, s.TameAt i)
    (hr : s.timing.Roomy now) : ∃ results, (s.tick now).2.2 = .ok results :=
  (h.tickOver_answers hnow ht h.nodup).mpr fun _ _ _ hd => h.room hnow hr hd

theorem Local.tick_faultless (h : s.Local) (hr : s.timing.Roomy now) (f : Fault) :
    (s.tick now).2.2 ≠ .error (.fault f) :=
  tickOver_faultless (fun j hj => (h.jobs j hj).sound) (fun i _ _ => h.kind hnow i) h.nodup
    (fun _ _ _ hd => h.room hnow hr hd) f

theorem Local.exists_wait (h : s.Local) :
    ∃ micros, s.wait now = .ok micros ∧ micros ≤ max 0 s.timing.pollInterval := by
  refine Scheduler.exists_wait fun j hj d hd => ?_
  obtain ⟨i, -, hj⟩ := List.mem_filterMap.mp hj
  rw [sameKind, (h.job hj).next d hd, hnow, beq_self_eq_true]

-- By induction on how far the jobs are behind.
theorem Local.kept_settle {s : Scheduler} (h : s.Local) : Kept (some now) s (s.settle now).1 := by
  obtain ⟨micros, hw, hle⟩ := h.exists_wait hnow
  by_cases hm : 0 < micros
  case pos =>
    rw [settle_of_wait hw hm]
    refine h.kept_sleep (fun hf => ?_) _ _
    have := hf.poll
    omega
  case neg =>
    have hk := h.kept_tick hnow
    have hfaultless := h.tick_faultless hnow
    rcases ht : s.tick now with ⟨after, notices, e | results⟩
    · rw [ht] at hk hfaultless
      rw [settle_of_halt hw hm ht]
      refine hk.trans <| hk.known.kept_halt fun f he hf => ?_
      exact hfaultless (hk.timing ▸ hf).toRoomy f <| congrArg _ he
    · rw [ht] at hk
      rw [settle_of_tick hw hm ht]
      split
      case isTrue hlt => exact hk.trans <| kept_settle hk.known
      case isFalse =>
        exact hk.trans <| .of_status_eq ⟨hk.known.jobs, hk.known.nodup⟩ rfl (.refl after) rfl
termination_by s.backlog now

theorem Local.recomputeOver (h : s.Local) (is : List Nat) :
    ∃ js, recomputeOver now is s = ({ s with jobs := js }, .ok ()) ∧ ∀ j ∈ js, j.Local := by
  induction is generalizing s
  case nil => exact ⟨s.jobs, rfl, h.jobs⟩
  case cons i is hi =>
    rw [Scheduler.recomputeOver]
    cases hj : s.jobs[i]?
    case none => exact hi h
    case some j =>
      obtain ⟨j', hj', hl⟩ := (h.job hj).recompute hnow
      dsimp only
      rw [hj']
      exact hi <| h.setJob i hl

theorem Local.kept_launch (h : s.Local) : Kept (some now) s (s.launch now).1 := by
  rw [launch]
  split
  case isTrue => exact h.kept_sleep (fun hf => hf.delay) _ _
  case isFalse =>
    obtain ⟨js, hjs, hl⟩ := h.recomputeOver hnow s.registered
    have htended := tended_recomputeOver s now s.registered
    rw [hjs] at htended ⊢
    have hk : Kept (some now) s { s with jobs := js } := htended.kept ⟨hl, h.nodup⟩
    exact hk.trans <| hk.known.kept_settle hnow

theorem Local.kept_start (h : s.Local) : Kept (some now) s (s.start now).1 := by
  rw [start]
  split
  case isTrue =>
    have hk : Kept (some now) s { s with thread := .busy, status := .active } :=
      ⟨rfl, .refl s, ⟨h.jobs, h.nodup⟩, fun _ _ => by simp⟩
    exact hk.trans <| hk.known.kept_launch hnow
  case isFalse => exact .refl h

theorem Local.kept_wake (h : s.Local) : Kept (some now) s (s.wake now).1 := by
  rw [wake]
  split
  case isTrue =>
    have hk := h.kept_tick hnow
    have hfaultless := h.tick_faultless hnow
    generalize s.tick now = x at hk hfaultless
    obtain ⟨after, notices, r⟩ := x
    cases r
    case error e =>
      refine hk.trans <| hk.known.kept_halt fun f he hf => ?_
      exact hfaultless (hk.timing ▸ hf).toRoomy f <| congrArg _ he
    case ok => exact hk.trans <| hk.known.kept_settle hnow
  case isFalse => exact .refl h

theorem Local.kept_register (h : s.Local) (i : Nat) {from? : Option Instant}
    (hfrom : ∀ t, from? = some t → t.offset = none) :
    Kept (some now) s (s.register now i from?).1 := by
  rw [register]
  split
  case isTrue => exact .refl h
  case isFalse hi =>
    have hn : (s.registered ++ [i]).Nodup := by
      refine List.nodup_append.mpr ⟨h.nodup, List.nodup_singleton i, fun k hk q hq => ?_⟩
      rw [List.mem_singleton.mp hq]
      exact fun he => hi (he ▸ hk)
    have hk : Kept (some now) s { s with registered := s.registered ++ [i] } :=
      .of_status_eq ⟨h.jobs, hn⟩ rfl (.refl s) rfl
    dsimp only
    cases hj : s.jobs[i]?
    case none => exact hk
    case some j =>
      have ho : (from?.getD now).offset = none := by
        cases from?
        case none   => exact hnow
        case some t => exact hfrom t rfl
      obtain ⟨j', hj', hl⟩ := (h.job hj).recompute ho
      dsimp only
      rw [hj']
      have hset := hk.known.setJob i hl
      have htended := tended_recompute (s := { s with registered := s.registered ++ [i] }) hj hj'
      exact hk.trans <| (htended.kept hset).trans <| hset.kept_wake hnow

theorem Local.kept_registerAndStart (h : s.Local) (i : Nat) {from? : Option Instant}
    (hfrom : ∀ t, from? = some t → t.offset = none) :
    Kept (some now) s (s.registerAndStart now i from?).1 := by
  have hk := h.kept_register hnow i hfrom
  rw [registerAndStart]
  generalize s.register now i from? = x at hk
  obtain ⟨after, notices, r⟩ := x
  cases r
  case error => exact hk
  case ok    => exact hk.trans <| hk.known.kept_start hnow

end Clock

theorem Local.kept_after (h : s.Local) (hx : x.Local) : Kept x.clock? s (s.after x) := by
  cases x
  case add now i from?         => exact h.kept_register hx.1 i hx.2
  case addAndStart now i from? => exact h.kept_registerAndStart hx.1 i hx.2
  case remove i                => exact .of_status_eq ⟨h.jobs, h.nodup.erase i⟩ rfl (.refl s) rfl
  case clear                   => exact .of_status_eq ⟨h.jobs, .nil⟩ rfl (.refl s) rfl
  case recompute i start =>
    obtain ⟨js, hjs, hl⟩ := h.recomputeOver hx [i]
    have htended := tended_recomputeOver s start [i]
    rw [hjs] at htended
    rw [after, hjs]
    exact htended.kept ⟨hl, h.nodup⟩
  case tick now                => exact h.kept_tick hx
  case start now               => exact h.kept_start hx
  case shutdown =>
    exact ⟨rfl, .refl s, ⟨h.jobs, .nil⟩, fun _ _ => by simp [after, shutdown]⟩

theorem Local.kept_undergo (h : s.Local) (he : e.Local) : Kept e.clock? s (s.undergo e) := by
  cases e
  case asked x     => exact h.kept_after he
  case woken clock => exact h.kept_wake he

-- By induction on the events.
theorem Local.kept_undergoAll (h : s.Local) (hes : ∀ e ∈ es, e.Local) :
    (s.undergoAll es).timing = s.timing ∧ s.Becomes (s.undergoAll es) ∧ (s.undergoAll es).Local ∧
      ((∀ e ∈ es, ∀ clock, e.clock? = some clock → s.timing.Fits clock) → s.status ≠ .error →
        (s.undergoAll es).status ≠ .error) := by
  induction es generalizing s
  case nil => exact ⟨rfl, .refl s, h, fun _ => id⟩
  case cons e es hi =>
    obtain ⟨he, hes⟩ := List.forall_mem_cons.mp hes
    have hk := h.kept_undergo he
    obtain ⟨ht, ha, hl, hok⟩ := hi hk.known hes
    refine ⟨ht.trans hk.timing, hk.becomes.trans ha, hl, fun hf hs => hok ?_ (hk.healthy ?_ hs)⟩
    · rw [hk.timing]
      exact fun e he => hf e <| List.mem_cons_of_mem _ he
    · exact hf e List.mem_cons_self

end Scheduler

namespace Timing

variable {timing : Timing} {first last : Nat}

-- Times that can be waited for, and no longer than the calendar before and after some years.
structure FitsYears (timing : Timing) (first last : Nat) : Prop where
  window   : timing.missedWindow ≤ dayMicros * Date.daysBeforeYear first
  interval : timing.smallestInterval + dayMicros * Date.daysBeforeYear (last + 1) ≤
    dayMicros * Date.lastOrdinal
  poll     : timing.pollInterval ≤ Scheduler.longestSleep
  delay    : timing.startDelay ≤ Scheduler.longestSleep

theorem FitsYears.fits (h : timing.FitsYears first last) (hw : 0 ≤ timing.missedWindow)
    (hi : 0 ≤ timing.smallestInterval) (hy : first ≤ now.year ∧ now.year ≤ last) :
    timing.Fits now := by
  have hbegin := now.date.daysBeforeYear_lt_ordinal
  have hend := now.date.ordinal_le_daysBeforeYear_succ
  have hfirst := Date.daysBeforeYear_mono hy.1
  have hlast := Date.daysBeforeYear_mono (Nat.succ_le_succ hy.2)
  have hwindow := h.window
  have hinterval := h.interval
  have hclock := now.clock_lt
  have hticks : now.ticks = now.clock + dayMicros * now.date.ordinal := rfl
  have hall : endTicks = dayMicros * (Date.lastOrdinal + 1) := rfl
  simp only [year, dayMicros, Nat.succ_eq_add_one] at *
  refine ⟨⟨hi, ?_, ?_⟩, h.poll, h.delay⟩
  · obtain ⟨u, hu, -⟩ := ofTicks_eq_ok (t := now) (n := now.ticks + -timing.missedWindow)
      (by simp only [dayMicros]; omega)
    exact ⟨u, hu⟩
  · obtain ⟨u, hu, -⟩ := ofTicks_eq_ok (t := now) (n := now.ticks + timing.smallestInterval)
      (by simp only [dayMicros]; omega)
    exact ⟨u, hu⟩

end Timing

open Scheduler Schedule

section Rounds

variable {entries : Entries} {settings : Settings} {s : Scheduler} {es : List Event}

-- With settings that were accepted, and where no instant has an offset: whatever has happened to a
-- scheduler, a round answers the occurrences that are due, and it does so if and only if the
-- calendar has room for them. In years that the times fit, every round answers, and the thread
-- never stops with a fault. A round does not answer if a body exits, but that is no fault either.
theorem rounds_answer (ha : Settings.ofEntries entries = .ok settings)
    (ht : settings.timing = .ok s.timing) (hs : ∀ j ∈ s.jobs, ∀ x ∈ j.schedules, x.Made)
    (hd : ∀ j ∈ s.jobs, ∀ d, j.next = some d ∨ j.last = some d → d.offset = none)
    (hr : s.registered.Nodup) (he : ∀ e ∈ es, e.Local) :
    let s' := s.undergoAll es
    (∀ now, now.offset = none →
      (∀ results, (s'.tick now).2.2 = .ok results →
        results.map (·.due) = s'.registered.filterMap (s'.dueOf now)) ∧
      ((∀ j ∈ s.jobs, j.Tame) → ((∃ results, (s'.tick now).2.2 = .ok results) ↔
        ∀ i ∈ s'.registered, ∀ d, s'.dueOf now i = some d → s.timing.Room now d))) ∧
    ∀ first last, s.timing.FitsYears first last →
      (∀ now, now.offset = none → first ≤ now.year ∧ now.year ≤ last →
        (∀ f, (s'.tick now).2.2 ≠ .error (.fault f)) ∧
          ((∀ j ∈ s.jobs, j.Tame) → ∃ results, (s'.tick now).2.2 = .ok results)) ∧
      ((∀ e ∈ es, ∀ clock, e.clock? = some clock → first ≤ clock.year ∧ clock.year ≤ last) →
        s.status ≠ .error → s'.status ≠ .error) := by
  intro s'
  have hl : s.Local := local_of_made hs hd hr
  obtain ⟨hw, hi, -⟩ := (Settings.accepted ha).timing_nonneg ht
  obtain ⟨htiming, hbecomes, hl', hok⟩ := hl.kept_undergoAll he
  have htame (ht : ∀ j ∈ s.jobs, j.Tame) : ∀ i ∈ s'.registered, s'.TameAt i :=
    fun i _ => hbecomes.tameAt fun j hj => ht j <| List.mem_of_getElem? hj
  refine ⟨fun now hnow => ⟨fun results hr => tickOver_due hl'.nodup hr, fun ht => ?_⟩,
    fun first last hy => ⟨fun now hnow hyears => ?_, fun hyears => hok fun e hm clock hc => ?_⟩⟩
  · rw [← htiming]
    exact hl'.tickOver_answers hnow (htame ht) hl'.nodup
  · have hroomy : s'.timing.Roomy now := htiming ▸ (hy.fits hw hi hyears).toRoomy
    exact ⟨hl'.tick_faultless hnow hroomy, fun ht => hl'.tick_answers hnow (htame ht) hroomy⟩
  · exact hy.fits hw hi <| hyears e hm clock hc

end Rounds

-- A daily job is put in at eight, when the thread is started without delay, and the thread wakes up
-- at nine. With a missed window of ten minutes, there is an answer in every year but the last.
theorem rounds_answer_with_short_window :
    let d : Date := ⟨2024, 1, 15, by decide, by decide, by decide, by decide, by decide, by decide⟩
    let eight : Instant := ⟨d, 8 * hourMicros, none, by decide⟩
    let nine : Instant := ⟨d, 9 * hourMicros, none, by decide⟩
    ∃ settings timing schedule,
      Settings.ofEntries [("missed_window_seconds", "6e2"), ("start_delay_seconds", "0")] =
        .ok settings ∧
      settings.timing = .ok timing ∧
      Schedule.read? ⟨.unix, 2024, 100, 900⟩ (some "0 9 * * *") = .ok schedule ∧
      let es : List Event := [.asked (.addAndStart eight 0 none), .woken nine]
      let job : Job := Job.new "a" (.function "backup") .unix [schedule] fun _ => .returns
      let s' := (idle timing [job]).undergoAll es
      (∀ now, now.offset = none →
        (∀ results, (s'.tick now).2.2 = .ok results →
          results.map (·.due) = s'.registered.filterMap (s'.dueOf now)) ∧
        ((∃ results, (s'.tick now).2.2 = .ok results) ↔
          ∀ i ∈ s'.registered, ∀ d, s'.dueOf now i = some d → timing.Room now d)) ∧
      (∀ now, now.offset = none → 1970 ≤ now.year ∧ now.year ≤ 9998 →
        ∃ results, (s'.tick now).2.2 = .ok results) ∧
      s'.status ≠ .error := by
  intro d eight nine
  let settings : Settings :=
    { Settings.standard with missedWindow := Double.ofInt 600, startDelay := Double.ofInt 0 }
  let timing : Timing := { Timing.standard with missedWindow := 600000000, startDelay := 0 }
  have ha : Settings.ofEntries [("missed_window_seconds", "6e2"), ("start_delay_seconds", "0")] =
      .ok settings := Except.toOption_eq_some_iff.mp (by decide +kernel)
  have ht : settings.timing = .ok timing := Except.toOption_eq_some_iff.mp (by decide +kernel)
  obtain ⟨schedule, hx⟩ := Except.exists_eq_ok_of_isSome
    (x := Schedule.read? ⟨.unix, 2024, 100, 900⟩ (some "0 9 * * *")) (by decide +kernel)
  refine ⟨settings, timing, schedule, ha, ht, hx, ?_⟩
  intro es job s'
  have htame : ∀ j ∈ [job], j.Tame := List.forall_mem_singleton.mpr fun _ => nofun
  have hmade : ∀ j ∈ [job], ∀ x ∈ j.schedules, x.Made :=
    List.forall_mem_singleton.mpr <| List.forall_mem_singleton.mpr ⟨_, _, _, hx, [], rfl⟩
  have hes : ∀ e ∈ es, e.Local := by simp [es, Event.Local, Operation.Local, eight, nine]
  have hfits : timing.FitsYears 1970 9998 :=
    ⟨by decide +kernel, by decide +kernel, by decide +kernel, by decide +kernel⟩
  obtain ⟨hanswers, hyears⟩ := rounds_answer (s := idle timing [job]) ha ht hmade
    (by simp [job, idle, Job.new]) .nil hes
  obtain ⟨hall, hok⟩ := hyears 1970 9998 hfits
  refine ⟨fun now hnow => (hanswers now hnow).imp_right fun h => h htame,
    fun now hnow hy => (hall now hnow hy).2 htame, hok ?_ (by simp [idle])⟩
  simp [es, Event.clock?, Operation.clock?, eight, nine, year, d]

-- A missed window of three thousand years is accepted, and no job that is due can be handled.
theorem round_leaves_calendar :
    let d : Date := ⟨2024, 1, 15, by decide, by decide, by decide, by decide, by decide, by decide⟩
    let nine : Instant := ⟨d, 9 * hourMicros, none, by decide⟩
    ∃ settings timing schedule,
      Settings.ofEntries [("missed_window_seconds", "1e11")] = .ok settings ∧
      settings.timing = .ok timing ∧
      Schedule.read? ⟨.unix, 2024, 100, 900⟩ (some "0 9 * * *") = .ok schedule ∧
      schedule.next? nine = .ok (some nine) ∧
      let job : Job :=
        { Job.new "a" (.function "backup") .unix [schedule] fun _ => .returns with
          next := some nine }
      let s : Scheduler := { idle timing [job] with registered := [0] }
      (s.tick nine).2.2 = .error (.fault .pastCalendar) := by
  intro d nine
  have ha : Settings.ofEntries [("missed_window_seconds", "1e11")] =
      .ok { Settings.standard with missedWindow := Double.ofInt 100000000000 } :=
    Except.toOption_eq_some_iff.mp (by decide +kernel)
  have ht : { Settings.standard with missedWindow := Double.ofInt 100000000000 }.timing =
      .ok { Timing.standard with missedWindow := 100000000000000000 } :=
    Except.toOption_eq_some_iff.mp (by decide +kernel)
  have hfound : ((Schedule.read? ⟨.unix, 2024, 100, 900⟩ (some "0 9 * * *")).toOption.bind fun x =>
      (x.next? nine).toOption) = some (some nine) := by decide +kernel
  obtain ⟨schedule, hx, hnext⟩ := Option.bind_eq_some_iff.mp hfound
  have hback : nine.add (-100000000000000000) = .error .pastCalendar := by decide +kernel
  have hbefore : nine.before nine = .ok false := before_eq_ok_false.mpr ⟨rfl, Int.le_refl _⟩
  refine ⟨_, _, schedule, ha, ht, Except.toOption_eq_some_iff.mp hx,
    Except.toOption_eq_some_iff.mp hnext, ?_⟩
  intro job s
  simp only [tick, tickOver, s, job, idle, Job.handle, List.getElem?_cons_zero, hbefore, hback]

end Cron
