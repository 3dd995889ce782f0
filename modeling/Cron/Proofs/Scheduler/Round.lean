import Cron.Proofs.Scheduler.Handling

-- A round, job by job. Looking at a job changes nothing but the job, so that a round over places
-- of which none is named twice comes to the same as looking at each job in the state in which the
-- round began.

namespace Cron.Scheduler

variable {now : Instant} {s : Scheduler} {i k : Nat} {is : List Nat} {j j' : Job}

-- Looking at the job at a place ends without a fault.
def Answers (now : Instant) (s : Scheduler) (i : Nat) : Prop :=
  ∀ j, s.jobs[i]? = some j → ∃ r, (j.handle s.timing now).2.2 = .ok r

-- What is answered of the job at a place, and what is reported, when it is looked at.
def answerOf (now : Instant) (s : Scheduler) (i : Nat) : Option Handled :=
  s.jobs[i]?.bind fun j => (j.handle s.timing now).2.2.toOption.join

def reportOf (now : Instant) (s : Scheduler) (i : Nat) : List Notice :=
  s.jobs[i]?.elim [] fun j => (j.handle s.timing now).2.1

-- The jobs of a scheduler after those at some places have been looked at.
def jobsAfter (now : Instant) (is : List Nat) (s : Scheduler) : List Job :=
  s.jobs.mapIdx fun k j => if k ∈ is then (j.handle s.timing now).1 else j

section Places

theorem answers_iff (hj : s.jobs[i]? = some j) :
    s.Answers now i ↔ ∃ r, (j.handle s.timing now).2.2 = .ok r := by
  simp [Answers, hj]

theorem answerOf_eq {r : Option Handled} (hj : s.jobs[i]? = some j)
    (hr : (j.handle s.timing now).2.2 = .ok r) : s.answerOf now i = r := by
  rw [answerOf, hj, Option.bind_some, hr]
  rfl

theorem answerOf_eq_none (hj : s.jobs[i]? = none) : s.answerOf now i = none := by
  rw [answerOf, hj, Option.bind_none]

theorem reportOf_eq (hj : s.jobs[i]? = some j) :
    s.reportOf now i = (j.handle s.timing now).2.1 := by
  rw [reportOf, hj, Option.elim_some]

theorem reportOf_eq_nil (hj : s.jobs[i]? = none) : s.reportOf now i = [] := by
  rw [reportOf, hj, Option.elim_none]

theorem jobsAfter_nil (now : Instant) (s : Scheduler) : s.jobsAfter now [] = s.jobs :=
  List.ext_getElem? fun k => by simp [jobsAfter]

theorem getElem?_jobsAfter (now : Instant) (is : List Nat) (s : Scheduler) (k : Nat) :
    (s.jobsAfter now is)[k]? =
      s.jobs[k]?.map fun j => if k ∈ is then (j.handle s.timing now).1 else j :=
  List.getElem?_mapIdx

theorem getElem?_jobsAfter_of_mem (hk : k ∈ is) (hj : s.jobs[k]? = some j) :
    (s.jobsAfter now is)[k]? = some (j.handle s.timing now).1 := by
  rw [getElem?_jobsAfter, hj, Option.map_some, if_pos hk]

theorem getElem?_jobsAfter_of_not_mem (hk : k ∉ is) : (s.jobsAfter now is)[k]? = s.jobs[k]? := by
  simp [getElem?_jobsAfter, if_neg hk]

end Places

section Others

-- What is made of one job is not made of another.
theorem getElem?_setJob_of_ne (h : i ≠ k) (j' : Job) : (s.setJob i j').jobs[k]? = s.jobs[k]? :=
  List.getElem?_set_ne h

theorem answers_setJob (h : i ≠ k) : (s.setJob i j').Answers now k ↔ s.Answers now k := by
  rw [Answers, Answers, getElem?_setJob_of_ne h]
  rfl

theorem answerOf_setJob (h : i ≠ k) : (s.setJob i j').answerOf now k = s.answerOf now k := by
  rw [answerOf, answerOf, getElem?_setJob_of_ne h]
  rfl

theorem reportOf_setJob (h : i ≠ k) : (s.setJob i j').reportOf now k = s.reportOf now k := by
  rw [reportOf, reportOf, getElem?_setJob_of_ne h]
  rfl

theorem jobsAfter_cons_of_none (hj : s.jobs[i]? = none) :
    s.jobsAfter now (i :: is) = s.jobsAfter now is := by
  refine List.ext_getElem? fun k => ?_
  rw [getElem?_jobsAfter, getElem?_jobsAfter]
  by_cases hk : k = i
  case pos => simp [hk, hj]
  case neg => simp [hk]

theorem jobsAfter_setJob (hi : i ∉ is) (hj : s.jobs[i]? = some j) :
    (s.setJob i (j.handle s.timing now).1).jobsAfter now is = s.jobsAfter now (i :: is) := by
  refine List.ext_getElem? fun k => ?_
  rw [getElem?_jobsAfter, getElem?_jobsAfter, getElem?_setJob hj]
  by_cases hk : i = k
  case pos =>
    subst hk
    simp [hi, hj]
  case neg =>
    simp only [if_neg hk, List.mem_cons, Ne.symm hk, false_or]
    rfl

end Others

-- By induction on the jobs that are left.
theorem tickOver_eq (hn : is.Nodup) (h : ∀ i ∈ is, s.Answers now i) :
    tickOver now is s = ({ s with jobs := s.jobsAfter now is }, is.flatMap (s.reportOf now),
      .ok (is.filterMap (s.answerOf now))) := by
  induction is generalizing s
  case nil =>
    rw [jobsAfter_nil]
    rfl
  case cons i is hi =>
    obtain ⟨hmem, hn⟩ := List.nodup_cons.mp hn
    obtain ⟨hi', his⟩ := List.forall_mem_cons.mp h
    rw [tickOver, List.flatMap_cons, List.filterMap_cons]
    cases hj : s.jobs[i]?
    case none =>
      rw [hi hn his, jobsAfter_cons_of_none hj, reportOf_eq_nil hj, answerOf_eq_none hj]
      rfl
    case some j =>
      obtain ⟨r, hr⟩ := (answers_iff hj).mp hi'
      have hne (k) (hk : k ∈ is) : i ≠ k := fun he => hmem (he ▸ hk)
      have hrest := hi (s := s.setJob i (j.handle s.timing now).1) hn fun k hk =>
        (answers_setJob (hne k hk)).mpr (his k hk)
      have hreports : is.flatMap ((s.setJob i (j.handle s.timing now).1).reportOf now) =
          is.flatMap (s.reportOf now) :=
        List.flatMap_congr fun k hk => reportOf_setJob (hne k hk)
      have hanswers : is.filterMap ((s.setJob i (j.handle s.timing now).1).answerOf now) =
          is.filterMap (s.answerOf now) :=
        List.filterMap_congr fun k hk => answerOf_setJob (hne k hk)
      rw [jobsAfter_setJob hmem hj, hreports, hanswers] at hrest
      rw [reportOf_eq hj, answerOf_eq hj hr]
      dsimp only
      generalize j.handle s.timing now = looked at hr hrest
      obtain ⟨j', notices, r'⟩ := looked
      cases hr
      dsimp only at hrest ⊢
      rw [hrest]
      cases r <;> rfl

-- A fault of a round is one that comes of looking at a job.
theorem tickOver_ne_fault (hn : is.Nodup)
    (h : ∀ i ∈ is, ∀ j, s.jobs[i]? = some j → ∀ f, (j.handle s.timing now).2.2 ≠ .error (.fault f))
    (f : Fault) : (tickOver now is s).2.2 ≠ .error (.fault f) := by
  induction is generalizing s
  case nil => simp [tickOver]
  case cons i is hi =>
    obtain ⟨hmem, hn⟩ := List.nodup_cons.mp hn
    obtain ⟨hi', his⟩ := List.forall_mem_cons.mp h
    rw [tickOver]
    cases hj : s.jobs[i]?
    case none => exact hi hn his
    case some j =>
      have hf := hi' j hj f
      have hne (k) (hk : k ∈ is) : i ≠ k := fun he => hmem (he ▸ hk)
      have hrest := hi (s := s.setJob i (j.handle s.timing now).1) hn fun k hk q hq =>
        his k hk q <| (getElem?_setJob_of_ne (hne k hk) _).symm.trans hq
      dsimp only
      generalize j.handle s.timing now = looked at hf hrest
      obtain ⟨j', notices, r⟩ := looked
      cases r
      case error => simpa using hf
      case ok r =>
        intro he
        exact hrest <| Except.map_eq_error_iff.mp he

-- A round answers if and only if it can look at every job.
theorem tickOver_answers_iff (hn : is.Nodup) :
    (∃ results, (tickOver now is s).2.2 = .ok results) ↔ ∀ i ∈ is, s.Answers now i := by
  refine ⟨fun h => ?_, fun h => ⟨_, by rw [tickOver_eq hn h]⟩⟩
  induction is generalizing s
  case nil => simp
  case cons i is hi =>
    obtain ⟨results, h⟩ := h
    obtain ⟨hmem, hn⟩ := List.nodup_cons.mp hn
    rw [tickOver] at h
    refine List.forall_mem_cons.mpr ?_
    cases hj : s.jobs[i]?
    case none =>
      rw [hj] at h
      refine ⟨fun j he => ?_, hi hn ⟨results, h⟩⟩
      cases hj.symm.trans he
    case some j =>
      rw [hj] at h
      rw [answers_iff hj]
      dsimp only at h
      generalize j.handle s.timing now = looked at h ⊢
      obtain ⟨j', notices, r⟩ := looked
      cases r
      case error => cases h
      case ok r =>
        obtain ⟨more, hm, -⟩ := Except.map_eq_ok_iff.mp h
        refine ⟨⟨r, rfl⟩, fun k hk => ?_⟩
        have hne : i ≠ k := fun he => hmem (he ▸ hk)
        exact (answers_setJob hne).mp <| hi hn ⟨more, hm⟩ k hk

end Cron.Scheduler
