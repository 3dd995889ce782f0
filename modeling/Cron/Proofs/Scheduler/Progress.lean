import Cron.Proofs.Schedule.Reachable
import Cron.Proofs.Scheduler.Becoming
import Cron.Proofs.Settings.Accepted

namespace Cron

variable {now b : Instant} {nows : List Instant} {i k : Nat} {is : List Nat} {j : Job}
variable {vs vs' : List (Nat × Handled)}

namespace Schedule

-- A schedule that was opened, wherever its years begin, and edited.
def Made (s : Schedule) : Prop :=
  ∃ l text s₀, read? l text = .ok s₀ ∧ ∃ edits : List Edit, s = edits.foldl Schedule.after s₀

theorem Made.sound {s : Schedule} (h : s.Made) : s.Sound := by
  obtain ⟨l, text, s₀, h, edits, rfl⟩ := h
  exact ((planted_of_read? h).1.sound.turn_foldl edits).sound

end Schedule

namespace Scheduler

variable {s s' s'' : Scheduler}

-- When a job is due next.
def nextOf (s : Scheduler) (i : Nat) : Option Instant := s.jobs[i]?.bind Job.next

-- The occurrences that are handled when jobs are looked at one after the other, each with the place
-- of its job. A fault ends the round.
def visits (now : Instant) : List Nat → Scheduler → List (Nat × Handled)
  | [], _ => []
  | i :: rest, s =>
    match s.jobs[i]? with
    | none => visits now rest s
    | some job =>
      let looked := job.handle s.timing now
      (Job.reports looked.2.2).map (i, ·) ++
        match looked.2.2 with
        | .error _ => []
        | .ok _ => visits now rest (s.setJob i looked.1)

-- What was handled in some rounds, and the scheduler after them.
def history : List Instant → Scheduler → List (Nat × Handled)
  | [], _ => []
  | now :: rest, s => visits now s.registered s ++ history rest (s.tick now).1

def ticks (s : Scheduler) (nows : List Instant) : Scheduler :=
  nows.foldl (fun s now => (s.tick now).1) s

-- What was handled of one job.
def ofJob (i : Nat) (vs : List (Nat × Handled)) : List Handled :=
  vs.filterMap fun v => if v.1 = i then some v.2 else none

-- A round answers what was handled in it.
theorem tickOver_eq_ok {results : List Handled} (h : (tickOver now is s).2.2 = .ok results) :
    results = (visits now is s).map Prod.snd := by
  induction is generalizing s results
  case nil =>
    cases h
    rfl
  case cons i is hi =>
    rw [tickOver] at h
    rw [visits]
    cases hj : s.jobs[i]?
    case none =>
      rw [hj] at h
      exact hi h
    case some job =>
      rw [hj] at h
      dsimp only at h ⊢
      generalize job.handle s.timing now = looked at h
      obtain ⟨job', notices, r⟩ := looked
      cases r
      case error f => cases h
      case ok handled =>
        obtain ⟨more, hm, rfl⟩ := Except.map_eq_ok_iff.mp h
        rw [hi hm]
        cases handled <;> simp [Job.reports]

theorem tick_eq_ok {results : List Handled} (h : (s.tick now).2.2 = .ok results) :
    results = (history [now] s).map Prod.snd := by
  rw [history, history, List.append_nil]
  exact tickOver_eq_ok h

section Jobs

@[simp]
theorem ofJob_append (i : Nat) (vs vs' : List (Nat × Handled)) :
    ofJob i (vs ++ vs') = ofJob i vs ++ ofJob i vs' := by
  simp [ofJob]

theorem ofJob_map_self (i : Nat) (hs : List Handled) : ofJob i (hs.map (i, ·)) = hs := by
  simp [ofJob, List.filterMap_map]

theorem ofJob_map_of_ne (h : i ≠ k) (hs : List Handled) : ofJob k (hs.map (i, ·)) = [] := by
  simp [ofJob, List.filterMap_map, h]

theorem nextOf_setJob_self (h : i < s.jobs.length) : (s.setJob i j).nextOf i = j.next := by
  simp [nextOf, setJob, h]

theorem nextOf_setJob_of_ne (h : i ≠ k) : (s.setJob i j).nextOf k = s.nextOf k := by
  simp [nextOf, setJob, List.getElem?_set_ne h]

end Jobs

-- All schedules of all jobs are sound.
def Sound (s : Scheduler) : Prop := ∀ j ∈ s.jobs, ∀ x ∈ j.schedules, x.Sound

-- From one scheduler to another while some occurrences are handled.
structure Advances (s : Scheduler) (vs : List (Nat × Handled)) (s' : Scheduler) : Prop where
  timing     : s'.timing = s.timing
  registered : s'.registered = s.registered
  sound      : s'.Sound
  passes     : ∀ i, Passes (s.nextOf i) (ofJob i vs) (s'.nextOf i)

namespace Advances

theorem refl (h : s.Sound) : Advances s [] s := ⟨rfl, rfl, h, fun _ => .done⟩

theorem trans (h : Advances s vs s') (h' : Advances s' vs' s'') : Advances s (vs ++ vs') s'' where
  timing     := h'.timing.trans h.timing
  registered := h'.registered.trans h.registered
  sound      := h'.sound
  passes i   := by
    rw [ofJob_append]
    exact (h.passes i).append (h'.passes i)

end Advances

section Spaced

variable (hs : s.Sound) (hi : 0 < s.timing.smallestInterval)

include hs hi

-- One job is looked at.
theorem advances_look (hj : s.jobs[i]? = some j) (hb : now.add s.timing.smallestInterval = .ok b) :
    Advances s ((Job.reports (j.handle s.timing now).2.2).map (i, ·))
      (s.setJob i (j.handle s.timing now).1) := by
  have hp := Job.handle_passes (hs j <| List.mem_of_getElem? hj) hi hb
  have ⟨hlt, _⟩ := List.getElem?_eq_some_iff.mp hj
  refine ⟨rfl, rfl, fun j' hj' => ?_, fun k => ?_⟩
  · rcases List.mem_or_eq_of_mem_set hj' with hj' | rfl
    · exact hs j' hj'
    · rw [(j.becomes_handle s.timing now).schedules]
      exact hs j <| List.mem_of_getElem? hj
  · by_cases hk : i = k
    · subst hk
      have hnext : s.nextOf i = j.next := by rw [nextOf, hj]; rfl
      rwa [ofJob_map_self, nextOf_setJob_self hlt, hnext]
    · rw [ofJob_map_of_ne hk, nextOf_setJob_of_ne hk]
      exact .done

-- By induction on the jobs that are left.
theorem advances_tickOver (hb : now.add s.timing.smallestInterval = .ok b) (is : List Nat) :
    Advances s (visits now is s) (tickOver now is s).1 := by
  induction is generalizing s
  case nil => exact .refl hs
  case cons i is hi' =>
    rw [visits, tickOver]
    cases hj : s.jobs[i]?
    case none => exact hi' hs hi hb
    case some j =>
      have hl := advances_look hs hi hj hb
      dsimp only
      generalize j.handle s.timing now = looked at hl
      obtain ⟨j', notices, r⟩ := looked
      cases r
      case error f => simpa using hl
      case ok handled =>
        refine hl.trans <| hi' hl.sound ?_ ?_
        · rw [hl.timing]; exact hi
        · rw [hl.timing]; exact hb

-- By induction on the rounds.
theorem advances_ticks (hn : ∀ now ∈ nows, ∃ b, now.add s.timing.smallestInterval = .ok b) :
    Advances s (history nows s) (s.ticks nows) := by
  induction nows generalizing s
  case nil => exact .refl hs
  case cons now nows hi' =>
    have ⟨b, hb⟩ := hn now List.mem_cons_self
    have ht := advances_tickOver hs hi hb s.registered
    refine ht.trans <| hi' ht.sound ?_ fun now' hm => ?_
    · rw [ht.timing]; exact hi
    · rw [ht.timing]; exact hn now' <| List.mem_cons_of_mem _ hm

end Spaced

-- Without a smallest interval, a job stays at an occurrence that it has missed, however often it is
-- looked at. By induction on the rounds.
theorem history_missed {due : Instant} (hz : s.timing.smallestInterval = 0)
    (hw : 0 ≤ s.timing.missedWindow) (hr : s.registered = [i]) (hj : s.jobs[i]? = some j)
    (hs : ∀ x ∈ j.schedules, x.Sound) (hd : j.next = some due)
    (ht : ∃ x ∈ j.schedules, x.next? due = .ok (some due))
    (hm : ∀ now ∈ nows, s.timing.Missed due now) :
    history nows s = nows.map (fun _ => (i, ⟨j.name, .missed, due, some due, none⟩)) ∧
      (s.ticks nows).nextOf i = some due := by
  induction nows generalizing s j
  case nil =>
    refine ⟨rfl, ?_⟩
    rw [ticks, List.foldl_nil, nextOf, hj, Option.bind_some, hd]
  case cons now nows hi =>
    have ⟨hnow, hnows⟩ := List.forall_mem_cons.mp hm
    have hh := Job.handle_missed hs hz hw hd ht hnow
    have ⟨hlt, _⟩ := List.getElem?_eq_some_iff.mp hj
    have htick : (s.tick now).1 = s.setJob i { j with last := some due } := by
      simp only [tick, hr, tickOver, hj, hh]
    have hj' :
        (s.setJob i { j with last := some due }).jobs[i]? = some { j with last := some due } :=
      List.getElem?_set_self hlt
    have hrest := hi (s := s.setJob i { j with last := some due }) hz hw hr hj' hs hd ht hnows
    rw [history, ticks, List.foldl_cons, htick, hrest.1]
    refine ⟨?_, hrest.2⟩
    simp [hr, visits, hj, hh, Job.reports]

end Scheduler

open Scheduler Schedule

section Occurrences

variable {entries : Entries} {settings : Settings} {s : Scheduler}

-- A round answers what was handled in it. With a smallest interval, however short, what is handled
-- of a job in any rounds is due later and later, and after the rounds the job is not due again or
-- later still.
theorem occurrences_move_on (ha : Settings.ofEntries entries = .ok settings)
    (ht : settings.timing = .ok s.timing) (hi : s.timing.smallestInterval ≠ 0)
    (hs : ∀ j ∈ s.jobs, ∀ x ∈ j.schedules, x.Made)
    (hn : ∀ now ∈ nows, ∃ b, now.add s.timing.smallestInterval = .ok b) (i : Nat) :
    (∀ now results, (s.tick now).2.2 = .ok results → results = (history [now] s).map Prod.snd) ∧
      (ofJob i <| history nows s).Pairwise (fun h h' => h.due.Earlier h'.due) ∧
      ∀ h ∈ ofJob i (history nows s), ∀ n, (s.ticks nows).nextOf i = some n → h.due.Earlier n := by
  have ⟨_, hnonneg, _⟩ := (Settings.accepted ha).timing_nonneg ht
  have hsound : s.Sound := fun j hj x hx => (hs j hj x hx).sound
  have hpos : 0 < s.timing.smallestInterval := by omega
  exact ⟨fun _ _ => tick_eq_ok, ((advances_ticks hsound hpos hn).passes i).pairwise⟩

end Occurrences

-- At noon a job is looked at twice that was due at nine, with a smallest interval of a second.
theorem occurrences_move_on_by_second :
    let d : Date := ⟨2024, 1, 15, by decide, by decide, by decide, by decide, by decide, by decide⟩
    let nine : Instant := ⟨d, 9 * hourMicros, none, by decide⟩
    let noon : Instant := ⟨d, 12 * hourMicros, none, by decide⟩
    let timing : Timing := { Timing.standard with smallestInterval := 1000000 }
    let job : Job :=
      { Job.new "a" (.function "backup") .unix [unrestricted ⟨.unix, 2024, 100, 900⟩]
          fun _ => .returns with next := some nine }
    let s : Scheduler := { idle timing [job] with registered := [0] }
    (∀ now results, (s.tick now).2.2 = .ok results → results = (history [now] s).map Prod.snd) ∧
      (ofJob 0 <| history [noon, noon] s).Pairwise (fun h h' => h.due.Earlier h'.due) ∧
      ∀ h ∈ ofJob 0 (history [noon, noon] s), ∀ n, (s.ticks [noon, noon]).nextOf 0 = some n →
        h.due.Earlier n := by
  intro d nine noon timing job s
  have ha : Settings.ofEntries [(.text "smallest_interval_seconds", .integer 1)] =
      .ok { Settings.standard with smallestInterval := Double.ofInt 1 } :=
    Except.toOption_eq_some_iff.mp (by decide +kernel)
  have ht : { Settings.standard with smallestInterval := Double.ofInt 1 }.timing = .ok s.timing :=
    Except.toOption_eq_some_iff.mp (by decide +kernel)
  have hmade : ∀ j ∈ s.jobs, ∀ x ∈ j.schedules, x.Made := by
    simp only [s, job, idle, Job.new, List.forall_mem_singleton]
    exact ⟨⟨.unix, 2024, 100, 900⟩, none, _, rfl, [], rfl⟩
  have hn : ∀ now ∈ [noon, noon], ∃ b, now.add s.timing.smallestInterval = .ok b := by
    have ⟨b, hb⟩ := Option.isSome_iff_exists.mp
      (by decide +kernel : (noon.add s.timing.smallestInterval).toOption.isSome)
    simp only [List.mem_cons, List.not_mem_nil, or_false, or_self, forall_eq]
    exact ⟨b, Except.toOption_eq_some_iff.mp hb⟩
  exact occurrences_move_on ha ht (by decide) hmade hn 0

-- A smallest interval of zero is accepted, and an occurrence that was missed is missed again.
theorem occurrence_missed_twice :
    let d : Date := ⟨2024, 1, 15, by decide, by decide, by decide, by decide, by decide, by decide⟩
    let nine : Instant := ⟨d, 9 * hourMicros, none, by decide⟩
    let noon : Instant := ⟨d, 12 * hourMicros, none, by decide⟩
    ∃ settings timing schedule,
      Settings.ofEntries [(.text "smallest_interval_seconds", .integer 0)] = .ok settings ∧
      settings.timing = .ok timing ∧
      Schedule.read? ⟨.unix, 2024, 100, 900⟩ (some "0 9 * * *") = .ok schedule ∧
      let job : Job :=
        { Job.new "a" (.function "backup") .unix [schedule] fun _ => .returns with
          next := some nine }
      let s : Scheduler := { idle timing [job] with registered := [0] }
      (ofJob 0 <| history [noon, noon] s).map (·.due) = [nine, nine] ∧
        (s.ticks [noon, noon]).nextOf 0 = some nine := by
  intro d nine noon
  have ha : Settings.ofEntries [(.text "smallest_interval_seconds", .integer 0)] =
      .ok { Settings.standard with smallestInterval := Double.ofInt 0 } :=
    Except.toOption_eq_some_iff.mp (by decide +kernel)
  have ht : { Settings.standard with smallestInterval := Double.ofInt 0 }.timing =
      .ok { Timing.standard with smallestInterval := 0 } :=
    Except.toOption_eq_some_iff.mp (by decide +kernel)
  have hfound : ((Schedule.read? ⟨.unix, 2024, 100, 900⟩ (some "0 9 * * *")).toOption.bind fun x =>
      (x.next? nine).toOption) = some (some nine) := by decide +kernel
  obtain ⟨schedule, hx, hnext⟩ := Option.bind_eq_some_iff.mp hfound
  have hx := Except.toOption_eq_some_iff.mp hx
  have hnext := Except.toOption_eq_some_iff.mp hnext
  refine ⟨_, _, schedule, ha, ht, hx, ?_⟩
  intro job s
  have hw : 0 ≤ Timing.standard.missedWindow := by decide
  have hmissed : { Timing.standard with smallestInterval := 0 }.Missed nine noon := by
    refine ⟨⟨d, 10 * hourMicros, none, by decide⟩, ?_, rfl, by decide +kernel⟩
    exact Except.toOption_eq_some_iff.mp (by decide +kernel)
  have hsound : ∀ x ∈ job.schedules, x.Sound :=
    List.forall_mem_singleton.mpr (Schedule.Made.sound ⟨_, _, _, hx, [], rfl⟩)
  have hm : ∀ now ∈ [noon, noon], s.timing.Missed nine now :=
    List.forall_mem_cons.mpr ⟨hmissed, List.forall_mem_singleton.mpr hmissed⟩
  have hh := history_missed (s := s) (i := 0) rfl hw rfl rfl hsound rfl
    ⟨schedule, List.mem_singleton_self _, hnext⟩ hm
  rw [hh.1]
  exact ⟨rfl, hh.2⟩

end Cron
