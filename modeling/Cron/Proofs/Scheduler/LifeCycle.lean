import Cron.Proofs.Scheduler.Steadiness

-- The life of a thread: what the status tells of it after anything that a scheduler was asked for,
-- whatever the jobs are. They may well make the thread stop with a fault. A body that exits takes
-- the thread along as well, but is no fault, and leaves the status as it is.

namespace Cron

open Instant

variable {now b : Instant} {i k : Nat} {is : List Nat} {j j' : Job}

-- Something happens to a scheduler, or the start delay of its thread is over.
inductive Turn
  | event (e : Event)
  | begun (clock : Instant)

namespace Turn

def clock? : Turn → Option Instant
  | event e => e.clock?
  | begun clock => some clock

-- Whether a thread may be started or shut down.
def Restarts : Turn → Prop
  | event (.asked (.start _)) | event (.asked (.addAndStart ..)) | event (.asked .shutdown) => True
  | _ => False

end Turn

namespace Job

open Scheduler Schedule

-- A job that is looked at without a fault lies less far behind, or not at all as before.
theorem lag_handle {timing : Timing} {r : Option Handled} (h : ∀ x ∈ j.schedules, x.Sound)
    (hi : 0 < timing.smallestInterval) (hb : now.add timing.smallestInterval = .ok b)
    (hr : (j.handle timing now).2.2 = .ok r) :
    lag now (j.handle timing now).1 ≤ lag now j - 1 := by
  have hl := looked_handle timing now j
  generalize j.handle timing now = x at hl hr
  cases hl
  case idle he =>
    have hz : lag now j = 0 := lag_eq_zero_iff.mpr fun d hd => (earlier_iff.mp <| he d hd).2
    dsimp only
    omega
  case fault => cases hr
  case run due _ _ _ _ _ =>
    have hlater := (universal_of_add hb).1
    have hz : lag now (j.runDue timing now due).1 = 0 :=
      (j.runDue_restarted due h hb).1.lag_eq_zero (by omega)
    dsimp only
    omega
  case miss due _ hd hbefore _ _ =>
    cases hb : due.add timing.smallestInterval
    case error f =>
      rw [miss_of_error hb] at hr
      cases hr
    case ok b =>
      obtain ⟨_, -, hs, -⟩ := j.miss_restarted h hb
      have hlater := (universal_of_add hb).1
      have hlt := hs.lag_lt hd (before_eq_ok_false.mp hbefore).2 (by omega)
      dsimp only
      omega

end Job

namespace Scheduler

variable {s s' s'' : Scheduler} {clock? : Option Instant} {r r' : Scheduler × List Notice}
variable {ns : List Notice} {t : Turn} {ts : List Turn}

-- What a thread does when its start delay is over.
def begin (s : Scheduler) (now : Instant) : Scheduler × List Notice :=
  match recomputeOver now s.registered s with
  | (s, .error _) => s.stop
  | (s, .ok ()) => s.settle now

theorem launch_eq (s : Scheduler) (now : Instant) : s.launch now =
    if 0 < s.timing.startDelay then
      s.sleep s.timing.startDelay .delayed (.waitingToStart s.timing.startDelay)
    else s.begin now :=
  rfl

-- What is reported while a scheduler is asked for something.
def notices (s : Scheduler) : Operation → List Notice
  | .add clock i from? => (s.register clock i from?).2.1
  | .addAndStart clock i from? => (s.registerAndStart clock i from?).2.1
  | .tick now => (s.tick now).2.1
  | .start clock => (s.start clock).2
  | .remove _ | .clear | .recompute _ _ | .shutdown => []

def turn (s : Scheduler) : Turn → Scheduler × List Notice
  | .event (.asked x) => (s.after x, s.notices x)
  | .event (.woken clock) => s.wake clock
  | .begun clock => if s.thread = .delayed then s.begin clock else (s, [])

def turns (s : Scheduler) (ts : List Turn) : Scheduler := ts.foldl (fun s t => (s.turn t).1) s

theorem Becomes.sound (h : s.Becomes s') (hs : s.Sound) : s'.Sound := by
  intro j' hj'
  obtain ⟨i, hi⟩ := List.getElem?_of_mem hj'
  obtain ⟨j, hj, hb⟩ := h.job hi
  exact hb.schedules ▸ hs j (List.mem_of_getElem? hj)

-- At an instant, a thread can handle what it finds due and need not try the same again.
structure Restful (now : Instant) (s : Scheduler) : Prop where
  sound    : s.Sound
  interval : 0 < s.timing.smallestInterval
  poll     : 0 < s.timing.pollInterval
  room     : ∃ b, now.add s.timing.smallestInterval = .ok b

theorem Restful.of_timing (h : s.Restful now) (ht : s'.timing = s.timing) (hs : s'.Sound) :
    s'.Restful now :=
  ⟨hs, ht ▸ h.interval, ht ▸ h.poll, ht ▸ h.room⟩

theorem Tended.restful (h : Tended s s') (hr : s.Restful now) : s'.Restful now :=
  hr.of_timing h.timing <| h.becomes.sound hr.sound

section Backlog

theorem lagOf_setJob (hj : s.jobs[i]? = some j) (j' : Job) (k : Nat) :
    (s.setJob i j').lagOf now k = if i = k then lag now j' else s.lagOf now k := by
  rw [lagOf, getElem?_setJob hj]
  split <;> rfl

-- A round that ends without a fault leaves no job further behind, and of those it looks at none as
-- far as before. By induction on the jobs that are left: a job may be among them more than once.
theorem Restful.lag_tickOver {results : List Handled} (h : s.Restful now)
    (hr : (tickOver now is s).2.2 = .ok results) :
    (∀ k, (tickOver now is s).1.lagOf now k ≤ s.lagOf now k) ∧
      ∀ k ∈ is, (tickOver now is s).1.lagOf now k ≤ s.lagOf now k - 1 := by
  induction is generalizing s results
  case nil => exact ⟨fun _ => Nat.le_refl _, nofun⟩
  case cons i is hi =>
    rw [tickOver] at hr ⊢
    cases hj : s.jobs[i]?
    case none =>
      rw [hj] at hr
      obtain ⟨hall, hless⟩ := hi h hr
      have hz : s.lagOf now i = 0 := by rw [lagOf, hj, Option.elim_none]
      refine ⟨hall, List.forall_mem_cons.mpr ⟨?_, hless⟩⟩
      have := hall i
      dsimp only
      omega
    case some j =>
      rw [hj] at hr
      obtain ⟨b, hb⟩ := h.room
      have hsound := h.sound j <| List.mem_of_getElem? hj
      have hlag (r) (hr : (j.handle s.timing now).2.2 = .ok r) :=
        Job.lag_handle hsound h.interval hb hr
      have hset : Tended s (s.setJob i (j.handle s.timing now).1) :=
        tended_setJob hj <| j.becomes_handle s.timing now
      dsimp only at hr ⊢
      generalize j.handle s.timing now = looked at hr hlag hset
      obtain ⟨j', notices, r⟩ := looked
      cases r
      case error => cases hr
      case ok r =>
        obtain ⟨more, hm, -⟩ := Except.map_eq_ok_iff.mp hr
        obtain ⟨hall, hless⟩ := hi (hset.restful h) hm
        have hself : (s.setJob i j').lagOf now i ≤ s.lagOf now i - 1 := by
          rw [lagOf_setJob hj, if_pos rfl, lagOf, hj]
          exact hlag r rfl
        have hlook (k) : (s.setJob i j').lagOf now k ≤ s.lagOf now k := by
          by_cases hk : i = k
          · subst hk
            exact hself.trans <| Nat.sub_le _ 1
          · rw [lagOf_setJob hj, if_neg hk]
        exact ⟨fun k => (hall k).trans (hlook k), List.forall_mem_cons.mpr
          ⟨(hall i).trans hself,
            fun k hk => (hless k hk).trans <| Nat.sub_le_sub_right (hlook k) 1⟩⟩

-- When there is no time to wait, a round brings the jobs nearer to the clock, or ends with a fault.
theorem Restful.backlog_lt {micros : Int} {results : List Handled} (h : s.Restful now)
    (hw : s.wait now = .ok micros) (hm : ¬0 < micros) (ht : s.tick now = (s', ns, .ok results)) :
    s'.backlog now < s.backlog now := by
  obtain ⟨hall, hless⟩ := h.lag_tickOver <| congrArg (·.2.2) ht
  obtain ⟨i, hi, hpos⟩ := lagOf_pos_of_wait hw hm h.poll
  have hlt : (s.tick now).1.lagOf now i < s.lagOf now i :=
    (hless i hi).trans_lt <| Nat.sub_one_lt_of_lt hpos
  rw [show s' = (s.tick now).1 by rw [ht], backlog_eq, backlog_eq, (tended_tick s now).registered]
  exact List.sum_lt_sum _ _ (fun k _ => hall k) ⟨i, hi, hlt⟩

end Backlog

-- The work of a thread: it goes on, and then it comes to rest, or it stops and gives notice of it,
-- or a body takes it along.
structure Settles (now : Instant) (s : Scheduler) (r : Scheduler × List Notice) : Prop where
  timing     : r.1.timing = s.timing
  registered : r.1.registered = s.registered
  becomes    : s.Becomes r.1
  fate       : r.1.thread ≠ .off ∧ r.1.status = s.status ∨
    r.1.thread = .off ∧ r.1.status = .error ∧ .stopped ∈ r.2 ∨
    r.1.thread = .off ∧ r.1.status = s.status ∧ s.Exited r.1
  rests      : s.Restful now → r.1.thread ≠ .busy

theorem Tended.settles (h : Tended s s') (ns : List Notice) (hr : Settles now s' r) :
    Settles now s (r.1, ns ++ r.2) where
  timing     := hr.timing.trans h.timing
  registered := hr.registered.trans h.registered
  becomes    := h.becomes.trans hr.becomes
  fate       := by
    rw [← h.status]
    exact hr.fate.imp_right <| Or.imp (fun ⟨hoff, he, hn⟩ => ⟨hoff, he, List.mem_append_right _ hn⟩)
      fun ⟨hoff, he, hexited⟩ => ⟨hoff, he, hexited.after h.becomes⟩
  rests      := hr.rests ∘ h.restful

theorem settles_stop (s : Scheduler) (now : Instant) : Settles now s s.stop where
  timing     := rfl
  registered := rfl
  becomes    := .refl s
  fate       := .inr <| .inl ⟨rfl, rfl, List.mem_singleton_self _⟩
  rests _    := by simp [stop]

-- A round that is ended early stops the thread or takes it along.
theorem settles_halt {e : Halt} (ht : s.tick now = (s', ns, .error e)) :
    Settles now s ((s'.halt e).1, ns ++ (s'.halt e).2) := by
  have htended := tended_tick s now
  rw [ht] at htended
  cases e
  case fault f => exact htended.settles ns <| settles_stop s' now
  case exit =>
    have hexited : s.Exited (s.tick now).1 := exited_tickOver <| congrArg (·.2.2) ht
    rw [ht] at hexited
    exact ⟨htended.timing, htended.registered, htended.becomes,
      .inr <| .inr ⟨rfl, htended.status, hexited⟩, fun _ => nofun⟩

theorem settles_sleep {thread : Thread} (ht : thread ≠ .off) (hb : thread ≠ .busy) (micros : Int)
    (notice : Notice) : Settles now s (s.sleep micros thread notice) := by
  rw [sleep]
  split
  case isTrue  => exact (Tended.refl s).settles [notice] <| settles_stop s now
  case isFalse => exact ⟨rfl, rfl, .refl s, .inl ⟨ht, rfl⟩, fun _ => hb⟩

-- By induction on how far the jobs are behind.
theorem settles_settle {s : Scheduler} (h : s.thread ≠ .off) : Settles now s (s.settle now) := by
  cases hw : s.wait now
  case error f =>
    rw [settle_of_unknown hw]
    exact settles_stop s now
  case ok micros =>
    by_cases hm : 0 < micros
    case pos =>
      rw [settle_of_wait hw hm]
      exact settles_sleep (by simp) (by simp) _ _
    case neg =>
      have htended := tended_tick s now
      rcases ht : s.tick now with ⟨after, notices, e | results⟩
      · rw [settle_of_halt hw hm ht]
        exact settles_halt ht
      · rw [ht] at htended
        rw [settle_of_tick hw hm ht]
        split
        case isTrue hlt => exact htended.settles notices <| settles_settle <| htended.thread ▸ h
        case isFalse hge =>
          -- There is no way on from here, but this does not come about where there is room.
          exact ⟨htended.timing, htended.registered, htended.becomes, .inl ⟨nofun, htended.status⟩,
            fun hr => absurd (hr.backlog_lt hw hm ht) hge⟩
termination_by s.backlog now

theorem settles_begin (h : s.thread ≠ .off) : Settles now s (s.begin now) := by
  have htended := tended_recomputeOver s now s.registered
  rw [begin]
  generalize recomputeOver now s.registered s = x at htended
  obtain ⟨after, r⟩ := x
  cases r
  case error => exact htended.settles [] <| settles_stop after now
  case ok    => exact htended.settles [] <| settles_settle <| htended.thread ▸ h

theorem settles_launch (h : s.thread ≠ .off) : Settles now s (s.launch now) := by
  rw [launch_eq]
  split
  case isTrue  => exact settles_sleep (by simp) (by simp) _ _
  case isFalse => exact settles_begin h

-- While there is a thread, the status tells so.
def Coherent (s : Scheduler) : Prop := s.thread ≠ .off → s.status = .active

-- The status tells of a thread, and there is none.
def Stranded (s : Scheduler) : Prop := s.status = .active ∧ s.thread = .off

theorem Coherent.thread_of_error (h : s.Coherent) (he : s.status = .error) : s.thread = .off := by
  by_contra hoff
  cases he.symm.trans (h hoff)

theorem Settles.coherent (h : Settles now s r) (hs : s.status = .active) : r.1.Coherent := by
  intro hoff
  rcases h.fate with ⟨-, he⟩ | ⟨ho, -⟩ | ⟨ho, -⟩
  · exact he.trans hs
  · exact absurd ho hoff
  · exact absurd ho hoff

theorem Settles.exited (h : Settles now s r) (hs : r.1.Stranded) : s.Exited r.1 := by
  rcases h.fate with ⟨ho, -⟩ | ⟨-, he, -⟩ | ⟨-, -, hexited⟩
  · exact absurd hs.2 ho
  · cases he.symm.trans hs.1
  · exact hexited

-- What a scheduler does at an instant, or at none, with what it reports.
structure Takes (clock? : Option Instant) (s : Scheduler) (r : Scheduler × List Notice) : Prop where
  timing   : r.1.timing = s.timing
  becomes  : s.Becomes r.1
  nodup    : s.registered.Nodup → r.1.registered.Nodup
  coherent : s.Coherent → r.1.Coherent
  stranded : r.1.Stranded → s.Stranded ∨ s.Exited r.1
  error    : r.1.status = .error → s.status = .error ∨ .stopped ∈ r.2
  rests    : (∀ clock, clock? = some clock → s.Restful clock) → s.thread ≠ .busy →
    r.1.thread ≠ .busy

namespace Takes

theorem of_thread_eq (ht : r.1.timing = s.timing) (hb : s.Becomes r.1)
    (hn : s.registered.Nodup → r.1.registered.Nodup) (hthread : r.1.thread = s.thread)
    (hstatus : r.1.status = s.status) : Takes clock? s r where
  timing      := ht
  becomes     := hb
  nodup       := hn
  coherent hc := by rwa [Coherent, hthread, hstatus]
  stranded hs := .inl ⟨hstatus ▸ hs.1, hthread ▸ hs.2⟩
  error he    := .inl <| hstatus ▸ he
  rests _     := hthread ▸ id

theorem refl (s : Scheduler) : Takes clock? s (s, []) := of_thread_eq rfl (.refl s) id rfl rfl

theorem trans (h : Takes clock? s r) (h' : Takes clock? r.1 r') :
    Takes clock? s (r'.1, r.2 ++ r'.2) where
  timing   := h'.timing.trans h.timing
  becomes  := h.becomes.trans h'.becomes
  nodup    := h'.nodup ∘ h.nodup
  coherent := h'.coherent ∘ h.coherent
  stranded hs := by
    rcases h'.stranded hs with hs | he
    · rcases h.stranded hs with hs | he
      · exact .inl hs
      · exact .inr <| he.before h'.becomes
    · exact .inr <| he.after h.becomes
  error he := by
    rcases h'.error he with he | hn
    · exact (h.error he).imp_right <| List.mem_append_left _
    · exact .inr <| List.mem_append_right _ hn
  rests hr hb := by
    refine h'.rests (fun clock hc => ?_) (h.rests hr hb)
    exact (hr clock hc).of_timing h.timing <| h.becomes.sound (hr clock hc).sound

end Takes

theorem Tended.takes (h : Tended s s') (ns : List Notice) : Takes clock? s (s', ns) :=
  .of_thread_eq h.timing h.becomes (h.registered ▸ id) h.thread h.status

theorem Settles.takes (h : Settles now s r) (hs : s.thread ≠ .off) : Takes (some now) s r where
  timing       := h.timing
  becomes      := h.becomes
  nodup        := h.registered ▸ id
  coherent hc  := h.coherent <| hc hs
  stranded hs' := .inr <| h.exited hs'
  error he     := by
    rcases h.fate with ⟨-, hf⟩ | ⟨-, -, hn⟩ | ⟨-, hf, -⟩
    · exact .inl <| hf ▸ he
    · exact .inr hn
    · exact .inl <| hf ▸ he
  rests hr _   := h.rests <| hr now rfl

section Operations

-- A thread that is not alive is started.
theorem settles_start (h : s.thread = .off) :
    Settles now { s with thread := .busy, status := .active } (s.start now) := by
  rw [start, if_pos h]
  exact settles_launch (by simp)

theorem start_of_alive (h : s.thread ≠ .off) (now : Instant) : s.start now = (s, []) := by
  rw [start, if_neg h]

theorem takes_start (s : Scheduler) (now : Instant) : Takes (some now) s (s.start now) := by
  by_cases h : s.thread = .off
  case pos =>
    have hs : Settles now _ (s.start now) := settles_start h
    refine ⟨hs.timing, hs.becomes, hs.registered ▸ id, fun _ => hs.coherent rfl,
      fun hs' => .inr <| hs.exited hs', fun he => ?_, fun hr _ => hs.rests ?_⟩
    · rcases hs.fate with ⟨-, hf⟩ | ⟨-, -, hn⟩ | ⟨-, hf, -⟩
      · cases he.symm.trans hf
      · exact .inr hn
      · cases he.symm.trans hf
    · exact (hr now rfl).of_timing rfl (hr now rfl).sound
  case neg =>
    rw [start_of_alive h]
    exact .refl s

theorem takes_wake (s : Scheduler) (now : Instant) : Takes (some now) s (s.wake now) := by
  rw [wake]
  split
  case isTrue hasleep =>
    have halive : s.thread ≠ .off := by simp [hasleep]
    have htended := tended_tick s now
    rcases ht : s.tick now with ⟨after, notices, e | results⟩
    · exact (settles_halt ht).takes halive
    · rw [ht] at htended
      exact (htended.settles notices <| settles_settle <| htended.thread ▸ halive).takes halive
  case isFalse => exact .refl s

theorem takes_append (h : i ∉ s.registered) :
    Takes clock? s ({ s with registered := s.registered ++ [i] }, []) := by
  refine .of_thread_eq rfl (.refl s) (fun hn => ?_) rfl rfl
  exact hn.append (List.nodup_singleton i) (List.disjoint_singleton.mpr h)

theorem takes_register (s : Scheduler) (now : Instant) (i : Nat) (from? : Option Instant) :
    Takes (some now) s ((s.register now i from?).1, (s.register now i from?).2.1) := by
  rw [register]
  split
  case isTrue => exact .refl s
  case isFalse hi =>
    have happend : Takes (some now) s _ := takes_append hi
    dsimp only
    cases hj : s.jobs[i]?
    case none => exact happend
    case some j =>
      dsimp only
      cases hr : j.recompute (from?.getD now)
      case error => exact happend
      case ok j' =>
        have hset := tended_recompute (s := { s with registered := s.registered ++ [i] }) hj hr
        exact (happend.trans <| hset.takes [.added j'.name j'.next]).trans <| takes_wake _ now

theorem takes_registerAndStart (s : Scheduler) (now : Instant) (i : Nat)
    (from? : Option Instant) :
    Takes (some now) s
      ((s.registerAndStart now i from?).1, (s.registerAndStart now i from?).2.1) := by
  have h := takes_register s now i from?
  rw [registerAndStart]
  generalize s.register now i from? = x at h
  obtain ⟨after, notices, r⟩ := x
  cases r
  case error => exact h
  case ok    => exact h.trans <| takes_start after now

theorem takes_turn (s : Scheduler) (t : Turn) : Takes t.clock? s (s.turn t) := by
  rcases t with (x | clock) | clock
  · cases x
    case add clock i from?         => exact takes_register s clock i from?
    case addAndStart clock i from? => exact takes_registerAndStart s clock i from?
    case remove i                  => exact .of_thread_eq rfl (.refl s) (.erase i) rfl rfl
    case clear                     => exact .of_thread_eq rfl (.refl s) (fun _ => .nil) rfl rfl
    case recompute i start         => exact (tended_recomputeOver s start [i]).takes _
    case tick now                  => exact (tended_tick s now).takes _
    case start clock               => exact takes_start s clock
    case shutdown =>
      refine ⟨rfl, .refl s, fun _ => .nil, fun _ => ?_, fun hs => ?_, fun he => ?_, fun _ _ => ?_⟩
      · simp [turn, after, shutdown, Coherent]
      · cases hs.1
      · cases he
      · simp [turn, after, shutdown]
  · exact takes_wake s clock
  · rw [turn]
    split
    case isTrue hdelayed =>
      have halive : s.thread ≠ .off := by simp [hdelayed]
      exact (settles_begin halive).takes halive
    case isFalse => exact .refl s

end Operations

section Off

theorem wake_of_off (h : s.thread = .off) (now : Instant) : s.wake now = (s, []) := by
  rw [wake, if_neg (by simp [h])]

theorem register_of_off (h : s.thread = .off) (now : Instant) (i : Nat) (from? : Option Instant) :
    (s.register now i from?).1.thread = .off ∧ (s.register now i from?).1.status = s.status := by
  rw [register]
  split
  case isTrue  => exact ⟨h, rfl⟩
  case isFalse =>
    dsimp only
    cases s.jobs[i]?
    case none   => exact ⟨h, rfl⟩
    case some j =>
      dsimp only
      cases j.recompute (from?.getD now)
      case error => exact ⟨h, rfl⟩
      case ok j' =>
        have hwake := wake_of_off (s := { s with registered := s.registered ++ [i] }.setJob i j') h
        dsimp only
        rw [hwake now]
        exact ⟨h, rfl⟩

-- Without a thread, there is none until it is started, and the status stays what it is.
theorem turn_of_off (h : s.thread = .off) (ht : ¬t.Restarts) :
    (s.turn t).1.thread = .off ∧ (s.turn t).1.status = s.status := by
  rcases t with (x | clock) | clock
  · cases x
    case add clock i from? => exact register_of_off h clock i from?
    case remove            => exact ⟨h, rfl⟩
    case clear             => exact ⟨h, rfl⟩
    case recompute i start =>
      have htended := tended_recomputeOver s start [i]
      exact ⟨htended.thread.trans h, htended.status⟩
    case tick now =>
      have htended := tended_tick s now
      exact ⟨htended.thread.trans h, htended.status⟩
    all_goals exact absurd trivial ht
  · rw [turn, wake_of_off h]
    exact ⟨h, rfl⟩
  · rw [turn, if_neg (by simp [h])]
    exact ⟨h, rfl⟩

end Off

section Runs

theorem turns_append (s : Scheduler) (ts ts' : List Turn) :
    s.turns (ts ++ ts') = (s.turns ts).turns ts' :=
  List.foldl_append

-- By induction on the turns.
theorem takes_turns (s : Scheduler) (ts : List Turn) :
    (s.turns ts).timing = s.timing ∧ s.Becomes (s.turns ts) ∧
      (s.registered.Nodup → (s.turns ts).registered.Nodup) ∧
      (s.Coherent → (s.turns ts).Coherent) := by
  induction ts generalizing s
  case nil => exact ⟨rfl, .refl s, id, id⟩
  case cons t ts hi =>
    have h := takes_turn s t
    obtain ⟨ht, hb, hn, hc⟩ := hi (s.turn t).1
    exact ⟨ht.trans h.timing, h.becomes.trans hb, hn ∘ h.nodup, hc ∘ h.coherent⟩

theorem thread_ne_busy_of_turns (hs : s.Sound) (hi : 0 < s.timing.smallestInterval)
    (hp : 0 < s.timing.pollInterval)
    (hr : ∀ t ∈ ts, ∀ clock, t.clock? = some clock →
      ∃ b, clock.add s.timing.smallestInterval = .ok b)
    (hb : s.thread ≠ .busy) : (s.turns ts).thread ≠ .busy := by
  induction ts generalizing s
  case nil => exact hb
  case cons t ts hrest =>
    obtain ⟨hr, hrs⟩ := List.forall_mem_cons.mp hr
    have h := takes_turn s t
    refine hrest (h.becomes.sound hs) (h.timing ▸ hi) (h.timing ▸ hp) (h.timing ▸ hrs) ?_
    exact h.rests (fun clock hc => ⟨hs, hi, hp, hr clock hc⟩) hb

-- What holds in the end and not at first has come about in some turn, and has lasted since the last
-- time that it did. By induction on the turns, from the last one on.
theorem exists_since {P : Scheduler → Prop} {Q : Scheduler → Turn → Prop}
    (h : ∀ s t, P (s.turn t).1 → P s ∨ Q s t) (hs : ¬P s) (he : P (s.turns ts)) :
    ∃ before t since, ts = before ++ t :: since ∧ Q (s.turns before) t ∧
      ∀ between, between <+: since → P (s.turns (before ++ t :: between)) := by
  induction ts using List.reverseRecOn
  case nil => exact absurd he hs
  case append_singleton ts t hi =>
    have hlast : s.turns (ts ++ [t]) = ((s.turns ts).turn t).1 := turns_append s ts [t]
    rcases h (s.turns ts) t (hlast ▸ he) with hbefore | hq
    · obtain ⟨before, u, since, rfl, hq, hall⟩ := hi hbefore
      refine ⟨before, u, since ++ [t], by simp, hq, fun between hp => ?_⟩
      rcases List.prefix_concat_iff.mp hp with rfl | hp
      · simpa using he
      · exact hall between hp
    · refine ⟨ts, t, [], rfl, hq, fun between hp => ?_⟩
      rw [List.prefix_nil.mp hp]
      exact he

-- No body exits that never does, whatever has happened before.
theorem not_exited_of_tame (h : ∀ j ∈ s.jobs, j.Tame) (hb : s.Becomes s') : ¬s'.Exited s'' := by
  intro he
  obtain ⟨i, j, _, n, hj, -, hn, -⟩ := he.after hb
  exact h j (List.mem_of_getElem? hj) n hn

end Runs

end Scheduler

open Scheduler Schedule

-- Whatever has happened to a scheduler, and whatever becomes of its jobs. Its status tells whether
-- there is a thread, as long as no body exits; one that does takes the thread along, and leaves it
-- to the next start or shutdown to set the status right. An error comes of a thread that stopped,
-- and lasts until one is started or shut down. No job is registered twice. A thread that is alive
-- is not started again. One that is not either lives, or stops with an error, or is taken along
-- when it is started. With intervals that are not zero, the thread comes to rest wherever the
-- calendar leaves room for a run.
theorem thread_life_cycle (timing : Timing) (jobs : List Job) (ts : List Turn) :
    let idle := idle timing jobs
    let s := idle.turns ts
    ((∀ j ∈ jobs, j.Tame) → (s.status = .active ↔ s.isAlive)) ∧
    (s.isAlive → s.status = .active) ∧
    (s.status = .active → s.isAlive = false →
      ∃ before t since, ts = before ++ t :: since ∧
        (idle.turns before).Exited ((idle.turns before).turn t).1 ∧
        ∀ between, between <+: since → let s' := idle.turns (before ++ t :: between)
          s'.status = .active ∧ s'.isAlive = false) ∧
    (s.status = .error → s.isAlive = false ∧
      ∃ before t since, ts = before ++ t :: since ∧ .stopped ∈ ((idle.turns before).turn t).2 ∧
        ∀ between, between <+: since → (idle.turns (before ++ t :: between)).status = .error) ∧
    (s.isAlive = false → ∀ t : Turn, ¬t.Restarts →
      (s.turn t).1.isAlive = false ∧ (s.turn t).1.status = s.status) ∧
    s.registered.Nodup ∧
    (s.shutdown.registered = [] ∧ s.shutdown.status = .stopped ∧ s.shutdown.isAlive = false) ∧
    (s.isOk = false ↔ s.registered ≠ [] ∧ s.isAlive = false) ∧
    (s.isAlive → ∀ clock, s.start clock = (s, [])) ∧
    (s.isAlive = false → ∀ clock, let r := s.start clock
      r.1.isAlive ∧ r.1.status = .active ∨
        r.1.isAlive = false ∧ r.1.status = .error ∧ .stopped ∈ r.2 ∨
        r.1.isAlive = false ∧ r.1.status = .active ∧ s.Exited r.1) ∧
    (0 < timing.smallestInterval → 0 < timing.pollInterval →
      (∀ j ∈ jobs, ∀ x ∈ j.schedules, x.Made) →
      (∀ t ∈ ts, ∀ clock, t.clock? = some clock →
        ∃ b, clock.add timing.smallestInterval = .ok b) → s.thread ≠ .busy) := by
  intro idle s
  have halive (s : Scheduler) : s.isAlive = true ↔ s.thread ≠ .off := by simp [isAlive]
  have hoff (s : Scheduler) : s.isAlive = false ↔ s.thread = .off := by simp [isAlive]
  obtain ⟨htiming, -, hnodup, hcoherent⟩ := takes_turns idle ts
  have hc : s.Coherent := hcoherent <| absurd rfl
  have hstranded (hs : s.Stranded) :=
    exists_since (P := Stranded) (Q := fun s t => s.Exited (s.turn t).1)
      (fun s t => (takes_turn s t).stranded) (by simp [idle, Scheduler.idle, Stranded]) hs
  simp only [halive, hoff]
  refine ⟨fun ht => ⟨fun ha ho => ?_, hc⟩, hc, fun ha ho => hstranded ⟨ha, ho⟩,
    fun he => ⟨hc.thread_of_error he, exists_since (P := fun s => s.status = .error)
      (fun s t => (takes_turn s t).error) (by simp [idle, Scheduler.idle]) he⟩,
    fun hs t ht => turn_of_off hs ht, hnodup .nil, ⟨rfl, rfl, rfl⟩, ?_,
    fun hs clock => start_of_alive hs clock, fun hs clock => ?_, fun hi hp hmade hr => ?_⟩
  · obtain ⟨before, t, since, -, hexited, -⟩ := hstranded ⟨ha, ho⟩
    exact not_exited_of_tame ht (takes_turns idle before).2.1 hexited
  · simp [isOk, hoff]
  · exact (settles_start hs).fate
  · exact thread_ne_busy_of_turns (fun j hj x hx => (hmade j hj x hx).sound) hi hp hr <|
      by simp [idle, Scheduler.idle]

-- A job has run at an instant with an offset, so that the thread stops when it is started by a
-- clock without one. It does so again, until the job is taken out. Another job exits when it first
-- runs.
theorem thread_life_cycle_of_mixed_job :
    let d : Date := ⟨2024, 1, 15, by decide, by decide, by decide, by decide, by decide, by decide⟩
    let eight : Instant := ⟨d, 8 * hourMicros, none, by decide⟩
    let aware : Instant := ⟨d, 8 * hourMicros, some 0, by decide⟩
    let job (ending : Ending) : Job :=
      Job.new "a" (.own "Report") .unix [unrestricted ⟨.unix, 2024, 100, 900⟩] fun _ => ending
    let timing : Timing := { Timing.standard with startDelay := 0 }
    let start : Turn := .event (.asked (.start eight))
    let ts : List Turn := [.event (.asked (.add eight 0 (some aware))),
      .event (.asked (.tick aware)), start]
    let ts' : List Turn := [.event (.asked (.addAndStart eight 0 none))]
    let mixed : Scheduler := idle timing [job .returns]
    let exiting : Scheduler := idle timing [job .exits]
    let s := mixed.turns ts
    let s' := mixed.turns (ts ++ [start, .event (.asked (.remove 0)), start])
    let s'' := exiting.turns ts'
    s.status = .error ∧ s.isOk = false ∧
    (∃ before t since, ts = before ++ t :: since ∧ .stopped ∈ ((mixed.turns before).turn t).2 ∧
      ∀ between, between <+: since → (mixed.turns (before ++ t :: between)).status = .error) ∧
    s'.status = .active ∧ s'.isAlive ∧ s'.thread ≠ .busy ∧ s'.start eight = (s', []) ∧
    s''.status = .active ∧ s''.isAlive = false ∧
    ∃ before t since, ts' = before ++ t :: since ∧
      (exiting.turns before).Exited ((exiting.turns before).turn t).1 := by
  intro d eight aware job timing start ts ts' mixed exiting s s' s''
  have he : s.status = .error := by decide +kernel
  have hr : s.registered ≠ [] := by decide +kernel
  have ha : s'.status = .active := by decide +kernel
  have ha' : s''.status = .active := by decide +kernel
  have hoff' : s''.isAlive = false := by decide +kernel
  obtain ⟨-, -, -, herror, -, -, -, hok, -⟩ := thread_life_cycle timing [job .returns] ts
  obtain ⟨hoff, hstopped⟩ := herror he
  obtain ⟨hactive, -, -, -, -, -, -, -, hkept, -, hrests⟩ :=
    thread_life_cycle timing [job .returns] (ts ++ [start, .event (.asked (.remove 0)), start])
  obtain ⟨-, -, hstranded, -⟩ := thread_life_cycle timing [job .exits] ts'
  obtain ⟨before, t, since, hts, hexited, -⟩ := hstranded ha' hoff'
  have htame : ∀ j ∈ [job .returns], j.Tame := List.forall_mem_singleton.mpr fun _ => nofun
  have halive := (hactive htame).mp ha
  have hmade : ∀ j ∈ [job .returns], ∀ x ∈ j.schedules, x.Made :=
    List.forall_mem_singleton.mpr <| List.forall_mem_singleton.mpr
      ⟨⟨.unix, 2024, 100, 900⟩, none, _, rfl, [], rfl⟩
  have height : ∃ b, eight.add timing.smallestInterval = .ok b :=
    Except.exists_eq_ok_of_isSome (by decide +kernel)
  have haware : ∃ b, aware.add timing.smallestInterval = .ok b :=
    Except.exists_eq_ok_of_isSome (by decide +kernel)
  refine ⟨he, hok.mpr ⟨hr, hoff⟩, hstopped, ha, halive, hrests (by decide) (by decide) hmade ?_,
    hkept halive eight, ha', hoff', before, t, since, hts, hexited⟩
  simp [ts, start, Turn.clock?, Event.clock?, Operation.clock?, height, haware]

-- The job is due at once, and its body exits: the thread is gone, and the scheduler is still called
-- active.
theorem exit_leaves_scheduler_active :
    let d : Date := ⟨2024, 1, 15, by decide, by decide, by decide, by decide, by decide, by decide⟩
    let eight : Instant := ⟨d, 8 * hourMicros, none, by decide⟩
    let job : Job :=
      Job.new "a" (.own "Report") .unix [unrestricted ⟨.unix, 2024, 100, 900⟩] fun _ => .exits
    let s := (idle { Timing.standard with startDelay := 0 } [job]).turns
      [.event (.asked (.addAndStart eight 0 none))]
    ¬(s.status = .active ↔ s.isAlive) := by
  intro d eight job s h
  have hactive : s.status = .active := by decide +kernel
  have hoff : s.isAlive = false := by decide +kernel
  exact Bool.false_ne_true (hoff.symm.trans (h.mp hactive))

end Cron
