import Cron.Proofs.Schedule.NextMatch

namespace Cron

variable {s : Schedule} {a b t u d : Instant} {n m : Nat} {ts rest : List Instant}

namespace Instant

-- The last year is more than a minute long.
theorem add_minute_eq_ok (h : t.year < lastYear) :
    ∃ d, t.add minuteMicros = .ok d ∧ d.ticks = t.ticks + minuteMicros ∧ d.offset = t.offset := by
  have hyear : Date.daysBeforeYear 9999 = 3651694 := by decide
  have hord : t.date.ordinal ≤ 3651694 :=
    calc
      t.date.ordinal ≤ Date.daysBeforeYear (t.year + 1) := t.date.ordinal_le_daysBeforeYear_succ
      _ ≤ Date.daysBeforeYear 9999 := Date.daysBeforeYear_mono h
      _ = 3651694 := hyear
  have hc := t.clock_lt
  have hpos := t.date.ordinal_pos
  have hn : (dayMicros : Int) ≤ t.ticks + minuteMicros ∧
      (t.ticks + minuteMicros : Int) < endTicks := by
    simp only [ticks, endTicks, dayMicros, minuteMicros, Date.lastOrdinal] at hc ⊢
    omega
  obtain ⟨d, hd, ht, ho⟩ := ofTicks_eq_ok (t := t) hn
  exact ⟨d, hd, by omega, ho⟩

end Instant

namespace Schedule

-- Where the search goes on after some matches: a minute past the last of them.
def resume (a : Instant) (ts : List Instant) : Except Fault Instant :=
  match ts.getLast? with
  | none => .ok a
  | some t => t.add minuteMicros

-- The matches from `a` on that come in a list of at most `n`. Instants are compared, and read, on
-- the clock of `a`.
structure Enumerates (s : Schedule) (a : Instant) (n : Nat) (ts : List Instant) : Prop where
  length     : ts.length ≤ n
  increasing : ts.Pairwise fun t u => t.ticks < u.ticks
  member     : ∀ t ∈ ts, a.ticks ≤ t.ticks ∧ t.second = 0 ∧ t.microsecond = 0 ∧
    t.offset = a.offset ∧ s.matches? t = .ok true
  -- No match up to one of them is left out.
  complete   : ∀ t ∈ ts, ∀ u, u.isWholeMinute → a.ticks ≤ u.ticks → u.ticks ≤ t.ticks →
    s.matches? u = .ok true → { u with offset := a.offset } ∈ ts
  -- There are fewer only if no further one is in reach.
  exhausted  : ts.length < n → ∃ r, resume a ts = .ok r ∧ ∀ u, u.isWholeMinute →
    r.ticks ≤ u.ticks →
    u.year ≤ min (max (s.layout.domain .year).upper (r.year + s.layout.horizon)) 9998 →
    s.matches? u = .ok false

section Recurrence

variable {gap : Int} {o : Outcome} {f : Fault}

theorem hunts_of_error (h : s.search a = .error f) : s.hunts gap (n + 1) a = .error f := by
  rw [hunts, h, Except.error_bind]

theorem hunts_of_none (h : s.search a = .ok o) (ho : o.instant? = none) :
    s.hunts gap (n + 1) a = .ok [⟨a, o⟩] := by
  rw [hunts, h, Except.ok_bind, ho]

theorem hunts_of_fault (h : s.search a = .ok o) (ho : o.instant? = some t)
    (hb : t.add gap = .error f) : s.hunts gap (n + 1) a = .error f := by
  rw [hunts, h, Except.ok_bind, ho]
  dsimp only
  rw [hb, Except.error_bind]

theorem hunts_of_some (h : s.search a = .ok o) (ho : o.instant? = some t) (hb : t.add gap = .ok b) :
    s.hunts gap (n + 1) a = (s.hunts gap n b).map fun rest => ⟨a, o⟩ :: rest := by
  rw [hunts, h, Except.ok_bind, ho]
  dsimp only
  rw [hb, Except.ok_bind]
  rfl

theorem nextN_of_error (h : s.search a = .error f) : s.nextN (n + 1) a = .error f := by
  rw [nextN, hunts_of_error h]
  rfl

theorem nextN_of_fault (h : s.search a = .ok o) (ho : o.instant? = some t)
    (hb : t.add minuteMicros = .error f) : s.nextN (n + 1) a = .error f := by
  rw [nextN, hunts_of_fault h ho hb]
  rfl

theorem nextN_of_none (h : s.search a = .ok o) (ho : o.instant? = none) :
    s.nextN (n + 1) a = .ok [] := by
  rw [nextN, hunts_of_none h ho]
  simp only [Except.map, List.filterMap_cons, ho, List.filterMap_nil]

theorem nextN_of_some (h : s.search a = .ok o) (ho : o.instant? = some t)
    (hb : t.add minuteMicros = .ok b) :
    s.nextN (n + 1) a = (s.nextN n b).map fun rest => t :: rest := by
  rw [nextN, hunts_of_some h ho hb, nextN]
  cases s.hunts minuteMicros n b
  case error => rfl
  case ok    => simp only [Except.map, List.filterMap_cons, ho]

-- To ask for fewer is to break off sooner.
theorem nextN_prefix (hm : m ≤ n) (hn : s.nextN n a = .ok ts) :
    ∃ firsts, s.nextN m a = .ok firsts ∧ firsts <+: ts := by
  induction m generalizing n a ts
  case zero => exact ⟨[], rfl, List.nil_prefix⟩
  case succ m hi =>
    obtain ⟨n, rfl⟩ := Nat.exists_eq_succ_of_ne_zero (Nat.ne_zero_of_lt hm)
    cases hs : s.search a
    case error =>
      rw [nextN, hunts_of_error hs] at hn
      cases hn
    case ok o =>
      cases ho : o.instant?
      case none => exact ⟨[], nextN_of_none hs ho, List.nil_prefix⟩
      case some t =>
        cases hb : t.add minuteMicros
        case error =>
          rw [nextN, hunts_of_fault hs ho hb] at hn
          cases hn
        case ok b =>
          rw [nextN_of_some hs ho hb] at hn
          obtain ⟨rest, hr, rfl⟩ := Except.map_eq_ok_iff.mp hn
          have ⟨firsts, hf, hp⟩ := hi (Nat.le_of_succ_le_succ hm) hr
          refine ⟨t :: firsts, ?_, (List.prefix_cons_inj t).mpr hp⟩
          rw [nextN_of_some hs ho hb, hf]
          rfl

end Recurrence

theorem enumerates_zero (s : Schedule) (a : Instant) : s.Enumerates a 0 [] where
  length     := Nat.le_refl _
  increasing := .nil
  member     := nofun
  complete   := nofun
  exhausted  := nofun

theorem enumerates_nil (hn : ∀ u, u.isWholeMinute → a.ticks ≤ u.ticks →
      u.year ≤ s.layout.searchLimit a → s.matches? u = .ok false) : s.Enumerates a n [] where
  length     := Nat.zero_le _
  increasing := .nil
  member     := nofun
  complete   := nofun
  exhausted _ := ⟨a, rfl, hn⟩

theorem resume_cons (hb : t.add minuteMicros = .ok b) : resume a (t :: rest) = resume b rest := by
  cases rest
  case nil => exact hb
  case cons u rest =>
    rw [resume, resume, List.getLast?_cons_cons]
    rfl

-- The first match, and those that follow from a minute later on.
theorem Enumerates.cons (hw : s.layout.WellFormed s.roots)
    (ht : s.layout.IsFirst s.roots (s.layout.searchLimit a) a t)
    (hb : b.ticks = t.ticks + minuteMicros) (ho : b.offset = t.offset)
    (hadd : t.add minuteMicros = .ok b) (h : s.Enumerates b n rest) :
    s.Enumerates a (n + 1) (t :: rest) where
  length     := Nat.succ_le_succ h.length
  increasing := by
    refine List.pairwise_cons.mpr ⟨fun u hu => ?_, h.increasing⟩
    have := (h.member u hu).1
    simp only [minuteMicros] at hb
    omega
  member u hu := by
    rcases List.mem_cons.mp hu with rfl | hu
    · obtain ⟨hs, hm⟩ := Instant.isWholeMinute_iff_second.mp ht.whole
      exact ⟨ht.le, hs, hm, ht.offset, matches?_eq_true hw ht.admitted⟩
    · obtain ⟨hle, hs, hm, hou, hmu⟩ := h.member u hu
      refine ⟨?_, hs, hm, hou.trans <| ho.trans ht.offset, hmu⟩
      have := ht.le
      omega
  complete last hlast u hu hau hul hmu := by
    rcases Nat.lt_trichotomy u.ticks t.ticks with hlt | heq | hgt
    · cases (matches?_eq_false hw <| ht.least u hu hau hlt).symm.trans hmu
    · have he : { u with offset := a.offset } = t := Instant.eq_of_ticks_eq heq ht.offset.symm
      exact he ▸ List.mem_cons_self
    · have hbu : b.ticks ≤ u.ticks := hb ▸ Instant.add_minute_le ht.whole hu hgt
      rcases List.mem_cons.mp hlast with rfl | hlast
      · exact absurd hul <| Nat.not_le.mpr hgt
      · rw [← ht.offset, ← ho]
        exact List.mem_cons_of_mem _ <| h.complete last hlast u hu hbu hul hmu
  exhausted hlen := by
    rw [resume_cons hadd]
    exact h.exhausted <| Nat.lt_of_succ_lt_succ hlen

-- By induction on how many are asked for; each search begins where the one before left off.
theorem nextN_enumerates (hw : s.layout.WellFormed s.roots) (n : Nat) (a : Instant) :
    ∃ ts, s.nextN n a = .ok ts ∧ s.Enumerates a n ts := by
  induction n generalizing a
  case zero => exact ⟨[], rfl, s.enumerates_zero a⟩
  case succ n hi =>
    obtain ⟨o, hs, hf⟩ : ∃ o, s.search a = .ok o ∧
        s.layout.Finds s.roots (s.layout.searchLimit a) a o.instant? := Layout.search_finds hw a
    generalize hi' : o.instant? = found at hf
    cases hf
    case none hn =>
      refine ⟨[], nextN_of_none hs hi', enumerates_nil fun u hu hau hy => ?_⟩
      exact matches?_eq_false hw <| hn u hu hau hy
    case first t ht =>
      have hy : t.year < lastYear := by
        have hle := ht.inReach
        rw [Layout.searchLimit] at hle
        have := Int.le_trans hle (Int.min_le_right _ _)
        simp only [lastYear] at this ⊢
        omega
      obtain ⟨b, hb, hbt, hbo⟩ := Instant.add_minute_eq_ok hy
      obtain ⟨rest, hr, he⟩ := hi b
      refine ⟨t :: rest, ?_, he.cons hw ht hbt hbo hb⟩
      rw [nextN_of_some hs hi' hb, hr]
      rfl

-- Matches are enumerated in order and without a gap. The enumeration never fails; it ends early
-- only where the search finds no further match, and to ask for more leaves those already found.
theorem enumeration_of_matches (h : Reachable s) (a : Instant) (n : Nat) :
    ∃ ts, s.nextN n a = .ok ts ∧ s.Enumerates a n ts ∧
      ∀ m ≤ n, ∃ firsts, s.nextN m a = .ok firsts ∧ firsts <+: ts := by
  have ⟨ts, hn, he⟩ := nextN_enumerates (h.sound.wellFormed h.one_le_firstYear) n a
  exact ⟨ts, hn, he, fun m hm => nextN_prefix hm hn⟩

theorem enumeration_of_matches_on_leap_days :
    let s := ((unrestricted ⟨.quartz, 2024, 100, 900⟩).after (.add 3 "29")).after (.add 4 "FEB")
    let d : Date := ⟨2025, 3, 1, by decide, by decide, by decide, by decide, by decide, by decide⟩
    let a : Instant := ⟨d, 1, none, by decide⟩
    ∃ ts, s.nextN 3 a = .ok ts ∧ s.Enumerates a 3 ts ∧
      ∀ m ≤ 3, ∃ firsts, s.nextN m a = .ok firsts ∧ firsts <+: ts := by
  intro s d a
  have h := Reachable.unrestricted (l := ⟨.quartz, 2024, 100, 900⟩) (by decide)
  exact enumeration_of_matches ((h.edited (.add 3 "29")).edited (.add 4 "FEB")) a 3

end Schedule
end Cron
