import Cron.Proofs.Scheduler.Spacing

-- A scheduler that is asked again and again at one instant. Each occurrence that is handled brings
-- a job nearer to the instant, until it is not due any more.

namespace Cron

open Instant

variable {timing : Timing} {now due d : Instant} {j : Job} {i k : Nat} {is : List Nat}

-- At an instant, the calendar leaves room for the missed window and for a smallest interval, which
-- is not zero.
structure Timing.Allows (timing : Timing) (now : Instant) : Prop where
  positive : 0 < timing.smallestInterval
  ahead    : ∃ b, now.add timing.smallestInterval = .ok b
  back     : ∃ b, now.add (-timing.missedWindow) = .ok b

-- How handling some occurrences of a job brings down how far it is behind, and counts its runs.
-- After a run it is not behind any more, so that all of them but the last were missed. A run that
-- exits is not among them.
structure Descent (behind runs : Nat) (hs : List Handled) (behind' runs' : Nat) : Prop where
  lag    : behind' + hs.length ≤ behind
  missed : hs.Pairwise fun h _ => h.outcome = .missed
  ran    : ∀ h ∈ hs, h.outcome ≠ .missed → behind' = 0
  runs   : runs' = runs ∨ runs' = runs + 1 ∧ 0 < behind ∧ behind' = 0

namespace Descent

variable {lag lag' lag'' runs runs' runs'' : Nat} {hs hs' : List Handled}

theorem refl (lag runs : Nat) : Descent lag runs [] lag runs where
  lag    := Nat.le_refl _
  missed := .nil
  ran    := nofun
  runs   := .inl rfl

theorem miss {h : Handled} (hl : lag' < lag) (hm : h.outcome = .missed) :
    Descent lag runs [h] lag' runs where
  lag    := hl
  missed := List.pairwise_singleton _ _
  ran    := List.forall_mem_singleton.mpr <| absurd hm
  runs   := .inl rfl

theorem run (r : Option Handled) (hl : 0 < lag) : Descent lag runs r.toList 0 (runs + 1) where
  lag    := by
    cases r
    case none   => exact Nat.zero_le _
    case some h => exact hl
  missed := by cases r <;> simp
  ran    := fun _ _ _ => rfl
  runs   := .inr ⟨rfl, hl, rfl⟩

theorem append (h : Descent lag runs hs lag' runs') (h' : Descent lag' runs' hs' lag'' runs'') :
    Descent lag runs (hs ++ hs') lag'' runs'' where
  lag := by
    have := h.lag
    have := h'.lag
    rw [List.length_append]
    omega
  missed := by
    refine List.pairwise_append.mpr ⟨h.missed, h'.missed, fun x hx y hy => ?_⟩
    by_contra hran
    have hzero := h.ran x hx hran
    have hpos := List.length_pos_of_mem hy
    have := h'.lag
    omega
  ran x hx hran := by
    rcases List.mem_append.mp hx with hx | hx
    · have hzero := h.ran x hx hran
      have := h'.lag
      omega
    · exact h'.ran x hx hran
  runs := by
    have := h.lag
    have := h'.lag
    have := h.runs
    have := h'.runs
    omega

theorem runs_le (h : Descent lag runs hs lag' runs') : runs' ≤ runs + 1 := by
  have := h.runs
  omega

end Descent

namespace Job

open Scheduler

theorem lag_of_next (h : j.next = some due) :
    lag now j = (now.universal - due.universal + 1).toNat := by
  rw [lag, h]

theorem lag_eq_zero_iff : lag now j = 0 ↔ ∀ d, j.next = some d → now.universal < d.universal := by
  rw [lag]
  cases j.next
  case none => simp
  case some d =>
    simp only [Option.some.injEq, forall_eq']
    omega

-- A job that can be brought up to an instant: it is compared with it without a fault, and restarts
-- from any occurrence up to it within the calendar.
structure Catchable (timing : Timing) (now : Instant) (j : Job) : Prop where
  sound : ∀ x ∈ j.schedules, x.Sound
  kind  : ∀ d, j.next = some d → now.sameKind d
  room  : ∀ d due, j.next = some d → d.Reaches due → due.universal ≤ now.universal →
    ∃ b, due.add timing.smallestInterval = .ok b

namespace Restarted

variable {j' : Job} {b : Instant}

theorem lag_lt (hr : j.Restarted b j') (hd : j.next = some due)
    (hle : due.universal ≤ now.universal) (hb : due.universal < b.universal) :
    lag now j' < lag now j := by
  rw [lag_of_next hd]
  cases hn : j'.next
  case none =>
    have hz : lag now j' = 0 := lag_eq_zero_iff.mpr (by simp [hn])
    omega
  case some d =>
    have := (hr.next d hn).universal_le
    rw [lag_of_next hn]
    omega

theorem lag_eq_zero (hr : j.Restarted b j') (hb : now.universal < b.universal) : lag now j' = 0 :=
  lag_eq_zero_iff.mpr fun d hn => Int.lt_of_lt_of_le hb (hr.next d hn).universal_le

theorem catchable (hr : j.Restarted b j') (h : j.Catchable timing now) (hk : now.sameKind b)
    (hroom : ∀ due, b.Reaches due → due.universal ≤ now.universal →
      ∃ c, due.add timing.smallestInterval = .ok c) : j'.Catchable timing now where
  sound := hr.schedules ▸ h.sound
  kind d hn := by rwa [sameKind, (hr.next d hn).offset]
  room d due hn hreach hle := hroom due ((hr.next d hn).trans hreach) hle

end Restarted

-- A job that is looked at has nothing to report only if it is not due, or if its body exits.
theorem handle_descends (h : j.Catchable timing now) (ha : timing.Allows now) :
    (j.handle timing now).1.Catchable timing now ∧
      Descent (lag now j) j.runCount (reports (j.handle timing now).2.2)
        (lag now (j.handle timing now).1) (j.handle timing now).1.runCount ∧
      ((∃ r, (j.handle timing now).2.2 = .ok r ∧ (r = none → lag now j = 0)) ∨
        (j.handle timing now).2.2 = .error .exit ∧ ¬j.Tame ∧
          lag now (j.handle timing now).1 < lag now j) := by
  have hl := looked_handle timing now j
  generalize j.handle timing now = x at hl
  cases hl
  case idle he =>
    exact ⟨h, .refl _ _, .inl ⟨none, rfl, fun _ => lag_eq_zero_iff.mpr fun d hd =>
      (earlier_iff.mp <| he d hd).2⟩⟩
  case fault due f hd hf =>
    obtain ⟨oldest, ho⟩ := ha.back
    rcases hf with hf | ⟨-, hf⟩
    · rw [before, if_pos (h.kind due hd)] at hf
      cases hf
    · cases ho.symm.trans hf
  case run due oldest hd hbefore _ _ =>
    -- After a run the job is next due later than `now`.
    obtain ⟨b, hb⟩ := ha.ahead
    obtain ⟨hr, hcount, hout⟩ := j.runDue_restarted due h.sound hb
    have hle := (before_eq_ok_false.mp hbefore).2
    have hlater : now.universal < b.universal := by
      have := (universal_of_add hb).1
      have := ha.positive
      omega
    have hkind : now.sameKind b := by rw [sameKind, (universal_of_add hb).2, beq_self_eq_true]
    have hpos : 0 < lag now j := by
      rw [lag_of_next hd]
      omega
    rw [hr.lag_eq_zero hlater, hcount]
    refine ⟨hr.catchable h hkind fun due' hreach hle' => ?_, ?_⟩
    · have := hreach.universal_le
      omega
    · rcases hout with ⟨handled, he, -⟩ | ⟨he, hexit⟩ <;> rw [he]
      · exact ⟨.run (some handled) hpos, .inl ⟨some handled, rfl, by simp⟩⟩
      · exact ⟨.run none hpos, .inr ⟨rfl, fun ht => ht _ hexit, hpos⟩⟩
  case miss due oldest hd hbefore _ _ =>
    -- After a miss it is next due later than before.
    obtain ⟨hs, hle⟩ := before_eq_ok_false.mp hbefore
    obtain ⟨b, hb⟩ := h.room due due hd (.refl due) hle
    obtain ⟨handled, hm, hr, hcount, -, -, hmissed⟩ := j.miss_restarted h.sound hb
    have hdue : due.Reaches b := reaches_of_add (Int.le_of_lt ha.positive) hb
    have hlater : due.universal < b.universal := by
      have := (universal_of_add hb).1
      have := ha.positive
      omega
    have hkind : now.sameKind b := by rwa [sameKind, hdue.offset]
    rw [hm, hcount]
    refine ⟨hr.catchable h hkind fun due' hreach hle' => ?_,
      .miss (hr.lag_lt hd hle hlater) hmissed, .inl ⟨some handled, rfl, by simp⟩⟩
    exact h.room due due' hd (hdue.trans hreach) hle'

end Job

namespace Scheduler

variable {s s' s'' : Scheduler} {vs vs' : List (Nat × Handled)}

-- How far the job at a place lies behind.
def lagOf (now : Instant) (s : Scheduler) (i : Nat) : Nat := s.jobs[i]?.elim 0 (lag now)

def Catchable (now : Instant) (s : Scheduler) (i : Nat) : Prop :=
  ∀ j, s.jobs[i]? = some j → j.Catchable s.timing now

-- What becomes of a scheduler while it handles occurrences at `now`.
structure CatchesUp (now : Instant) (s : Scheduler) (vs : List (Nat × Handled))
    (s' : Scheduler) : Prop where
  timing     : s'.timing = s.timing
  registered : s'.registered = s.registered
  catchable  : ∀ i, s.Catchable now i → s'.Catchable now i
  descent    : ∀ i, Descent (s.lagOf now i) (s.runsOf i) (ofJob i vs) (s'.lagOf now i) (s'.runsOf i)

namespace CatchesUp

theorem refl (now : Instant) (s : Scheduler) : CatchesUp now s [] s :=
  ⟨rfl, rfl, fun _ => id, fun _ => .refl _ _⟩

theorem trans (h : CatchesUp now s vs s') (h' : CatchesUp now s' vs' s'') :
    CatchesUp now s (vs ++ vs') s'' where
  timing         := h'.timing.trans h.timing
  registered     := h'.registered.trans h.registered
  catchable i hi := h'.catchable i <| h.catchable i hi
  descent i      := by
    rw [ofJob_append]
    exact (h.descent i).append (h'.descent i)

theorem lag_le (h : CatchesUp now s vs s') (i : Nat) : s'.lagOf now i ≤ s.lagOf now i :=
  Nat.le_of_add_right_le (h.descent i).lag

end CatchesUp

theorem catchesUp_look {j' : Job} {hs : List Handled} (hj : s.jobs[i]? = some j)
    (hc : j'.Catchable s.timing now)
    (hd : Descent (lag now j) j.runCount hs (lag now j') j'.runCount) :
    CatchesUp now s (hs.map (i, ·)) (s.setJob i j') where
  timing     := rfl
  registered := rfl
  catchable k hk q hq := by
    rw [getElem?_setJob hj] at hq
    split at hq
    · cases hq
      exact hc
    · exact hk q hq
  descent k := by
    rw [lagOf, runsOf, lagOf, runsOf, getElem?_setJob hj]
    split
    case isTrue hk =>
      subst hk
      rw [hj, ofJob_map_self]
      exact hd
    case isFalse hk =>
      rw [ofJob_map_of_ne hk]
      exact .refl _ _

-- A round answers of what was handled in it, and of nothing only if none of its jobs is due, unless
-- it is ended by a body that exits. That body has run.
theorem tickOver_catchesUp (ha : s.timing.Allows now) (hc : ∀ i ∈ is, s.Catchable now i) :
    CatchesUp now s (visits now is s) (tickOver now is s).1 ∧
      ((tickOver now is s).2.2 = .ok ((visits now is s).map Prod.snd) ∧
          (visits now is s = [] → ∀ i ∈ is, s.lagOf now i = 0) ∨
        (tickOver now is s).2.2 = .error .exit ∧
          ∃ i ∈ is, ¬s.TameAt i ∧ (tickOver now is s).1.lagOf now i < s.lagOf now i) := by
  induction is generalizing s
  case nil => exact ⟨.refl now s, .inl ⟨rfl, by simp⟩⟩
  case cons i is hi =>
    obtain ⟨hci, hcis⟩ := List.forall_mem_cons.mp hc
    rw [visits, tickOver]
    cases hj : s.jobs[i]?
    case none =>
      obtain ⟨hup, hout⟩ := hi ha hcis
      rcases hout with ⟨hok, hnil⟩ | ⟨he, k, hk, hlt⟩
      · refine ⟨hup, .inl ⟨hok, fun hv => List.forall_mem_cons.mpr ⟨?_, hnil hv⟩⟩⟩
        rw [lagOf, hj]
        rfl
      · exact ⟨hup, .inr ⟨he, k, List.mem_cons_of_mem i hk, hlt⟩⟩
    case some j =>
      obtain ⟨hcj, hdesc, hout⟩ := j.handle_descends (hci j hj) ha
      have hlook := catchesUp_look hj hcj hdesc
      have hbecomes := becomes_setJob hj <| j.becomes_handle s.timing now
      dsimp only
      generalize j.handle s.timing now = looked at hout hlook hbecomes
      obtain ⟨j', notices, r⟩ := looked
      rcases hout with ⟨r, rfl, hnone⟩ | ⟨rfl, hwild, hlt⟩
      · obtain ⟨hup, hout⟩ := hi (s := s.setJob i j') ha fun k hk =>
          hlook.catchable k <| hcis k hk
        have hreports : Job.reports (.ok r) = r.toList := by cases r <;> rfl
        refine ⟨hlook.trans hup, ?_⟩
        dsimp only
        rcases hout with ⟨hok, hnil⟩ | ⟨he, k, hk, hwild, hlt⟩
        · rw [hok, hreports]
          refine .inl ⟨by simp [Except.map, Function.comp_def], fun hv => ?_⟩
          obtain ⟨hv, hvs⟩ := List.append_eq_nil_iff.mp hv
          have hzero : s.lagOf now i = 0 := by
            rw [lagOf, hj]
            exact hnone <| by simpa using hv
          refine List.forall_mem_cons.mpr ⟨hzero, fun k hk => ?_⟩
          have hk := hnil hvs k hk
          rw [lagOf, getElem?_setJob hj] at hk
          by_cases he : i = k
          · exact he ▸ hzero
          · rwa [if_neg he] at hk
        · rw [he]
          exact .inr ⟨rfl, k, List.mem_cons_of_mem i hk, mt hbecomes.tameAt hwild,
            Nat.lt_of_lt_of_le hlt <| hlook.lag_le k⟩
      · have hup : CatchesUp now s (((Job.reports (.error .exit)).map (i, ·)) ++ [])
            (s.setJob i j') := hlook.trans (.refl now _)
        refine ⟨hup, .inr ⟨rfl, i, List.mem_cons_self, fun ht => hwild <| ht j hj, ?_⟩⟩
        rw [lagOf, lagOf, getElem?_setJob hj, if_pos rfl, hj]
        exact hlt

section Rounds

theorem fst_mem_of_mem_visits {v : Nat × Handled} (hv : v ∈ visits now is s) : v.1 ∈ is := by
  induction is generalizing s
  case nil => cases hv
  case cons i is hi =>
    rw [visits] at hv
    cases hj : s.jobs[i]?
    case none =>
      rw [hj] at hv
      exact List.mem_cons_of_mem _ <| hi hv
    case some j =>
      rw [hj] at hv
      rcases List.mem_append.mp hv with hv | hv
      · obtain ⟨h, -, rfl⟩ := List.mem_map.mp hv
        exact List.mem_cons_self
      · split at hv
        · cases hv
        · exact List.mem_cons_of_mem _ <| hi hv

theorem snd_mem_ofJob {v : Nat × Handled} (hv : v ∈ vs) : v.2 ∈ ofJob v.1 vs :=
  List.mem_filterMap.mpr ⟨v, hv, if_pos rfl⟩

-- A scheduler whose jobs can all be brought up to an instant.
structure Able (now : Instant) (s : Scheduler) : Prop where
  allows : s.timing.Allows now
  jobs   : ∀ i ∈ s.registered, s.Catchable now i

theorem CatchesUp.able (h : CatchesUp now s vs s') (hs : s.Able now) : s'.Able now where
  allows    := h.timing ▸ hs.allows
  jobs i hi := h.catchable i <| hs.jobs i <| h.registered ▸ hi

theorem history_single (now : Instant) (s : Scheduler) :
    history [now] s = visits now s.registered s :=
  List.append_nil _

theorem tick_catchesUp (h : s.Able now) :
    CatchesUp now s (history [now] s) (s.tick now).1 ∧
      ((s.tick now).2.2 = .ok ((history [now] s).map Prod.snd) ∨
        (s.tick now).2.2 = .error .exit ∧ ∃ i ∈ s.registered, ¬s.TameAt i) ∧
      ((s.tick now).2.2 = .ok [] ↔ ∀ i ∈ s.registered, s.lagOf now i = 0) ∧
      ((s.tick now).2.2 ≠ .ok [] →
        ∃ i ∈ s.registered, (s.tick now).1.lagOf now i < s.lagOf now i) := by
  obtain ⟨hup, hout⟩ := tickOver_catchesUp h.allows h.jobs
  rw [history_single]
  rcases hout with ⟨hok, hnil⟩ | ⟨he, i, hi, hwild, hlt⟩
  · have hempty : (s.tick now).2.2 = .ok [] ↔ visits now s.registered s = [] := by
      rw [tick, hok, Except.ok.injEq, List.map_eq_nil_iff]
    have hless (v) (hv : v ∈ visits now s.registered s) :
        v.1 ∈ s.registered ∧ (s.tick now).1.lagOf now v.1 < s.lagOf now v.1 := by
      have hlag := (hup.descent v.1).lag
      have hpos := List.length_pos_of_mem <| snd_mem_ofJob hv
      exact ⟨fst_mem_of_mem_visits hv, Nat.lt_of_lt_of_le (Nat.lt_add_of_pos_right hpos) hlag⟩
    refine ⟨hup, .inl hok, ⟨hnil ∘ hempty.mp, fun hz => hempty.mpr ?_⟩, fun hne => ?_⟩
    · refine List.eq_nil_iff_forall_not_mem.mpr fun v hv => ?_
      obtain ⟨hi, hlt⟩ := hless v hv
      rw [hz v.1 hi] at hlt
      exact Nat.not_lt_zero _ hlt
    · obtain ⟨v, hv⟩ := List.exists_mem_of_ne_nil _ <| mt hempty.mpr hne
      exact ⟨v.1, hless v hv⟩
  · refine ⟨hup, .inr ⟨he, i, hi, hwild⟩, iff_of_false (by simp [tick, he]) fun hz => ?_,
      fun _ => ⟨i, hi, hlt⟩⟩
    rw [hz i hi] at hlt
    exact Nat.not_lt_zero _ hlt

-- By induction on the rounds.
theorem catchesUp_ticks (h : s.Able now) (n : Nat) :
    CatchesUp now s (history (List.replicate n now) s) (s.ticks (List.replicate n now)) := by
  induction n generalizing s
  case zero => exact .refl now s
  case succ n hi =>
    obtain ⟨hup, -⟩ := tick_catchesUp h
    rw [history_single] at hup
    exact hup.trans <| hi <| hup.able h

theorem becomes_ticks (s : Scheduler) (nows : List Instant) : s.Becomes (s.ticks nows) := by
  induction nows generalizing s
  case nil => exact .refl s
  case cons now nows hi => exact (tended_tick s now).becomes.trans <| hi _

theorem ticks_add (s : Scheduler) (now : Instant) (m n : Nat) :
    s.ticks (List.replicate (m + n) now) =
      (s.ticks (List.replicate m now)).ticks (List.replicate n now) := by
  rw [ticks, ← List.replicate_append_replicate, List.foldl_append]
  rfl

end Rounds

end Scheduler

end Cron
