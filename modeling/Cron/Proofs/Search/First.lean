import Cron.Proofs.Search.Passes

namespace Cron

variable {ι : Type} {l : Layout} {roots : Columns (Expr ι)} {t u d : Instant} {limit : Int}

namespace Instant

theorem ceilMinute_of_not_whole (h : ¬t.isWholeMinute) :
    t.ceilMinute = t.ofTicks (t.ticks - t.clock % minuteMicros + minuteMicros : Nat) := by
  have hn : (t.ticks : Int) - t.clock % minuteMicros + minuteMicros =
      ((t.ticks - t.clock % minuteMicros + minuteMicros : Nat) : Int) := by
    simp only [ticks, minuteMicros] at *
    omega
  rw [ceilMinute, if_neg h, hn]

-- No whole minute lies between an instant within a minute and the end of that minute.
theorem leads_ceilMinute (h : ¬t.isWholeMinute) : Leads t t.ceilMinute (¬·.isWholeMinute) := by
  rw [ceilMinute_of_not_whole h]
  rw [isWholeMinute_iff_ticks] at h
  have hm : t.clock % minuteMicros = t.ticks % minuteMicros := by
    simp only [ticks, minuteMicros, dayMicros]
    omega
  rw [hm]
  simp only [minuteMicros] at *
  refine (leads_ofTicks (by omega) ?_).imp fun u _ hu hw => ?_
  · simp only [minuteMicros]
    omega
  · rw [isWholeMinute_iff_ticks] at hw
    simp only [minuteMicros] at hw
    omega

-- Rounding up passes over no whole minute, and there is none if it leaves the calendar.
theorem ceilMinute_least (t : Instant) :
    (∃ d, t.ceilMinute = .ok d ∧ t.ticks ≤ d.ticks ∧ d.isWholeMinute ∧ d.offset = t.offset ∧
      ∀ u : Instant, u.isWholeMinute → t.ticks ≤ u.ticks → d.ticks ≤ u.ticks) ∨
    ∃ f, t.ceilMinute = .error f ∧ ∀ u : Instant, u.isWholeMinute → u.ticks < t.ticks := by
  by_cases hw : t.isWholeMinute
  case pos =>
    rw [ceilMinute, if_pos hw]
    exact .inl ⟨t, rfl, Nat.le_refl _, hw, rfl, fun _ _ hu => hu⟩
  case neg =>
    have hl := leads_ceilMinute hw
    cases he : t.ceilMinute
    case error f =>
      rw [he] at hl
      refine .inr ⟨f, rfl, fun u hu => Nat.not_le.mp fun hle => ?_⟩
      exact hl.between u hle trivial hu
    case ok d =>
      rw [he] at hl
      have ⟨hlt, hd, ho⟩ := hl.later d rfl
      refine .inl ⟨d, rfl, Nat.le_of_lt hlt, hd, ho, fun u hu hle => Nat.not_lt.mp fun hlt => ?_⟩
      exact hl.between u hle hlt hu

end Instant

namespace Layout

open Instant

-- The first whole minute from `t` on that all columns admit, not later than a year.
structure IsFirst (l : Layout) (roots : Columns (Expr ι)) (limit : Int) (t d : Instant) : Prop where
  le       : t.ticks ≤ d.ticks
  whole    : d.isWholeMinute
  offset   : d.offset = t.offset
  inReach  : d.year ≤ limit
  admitted : l.Admitted roots d
  least    : ∀ u, u.isWholeMinute → t.ticks ≤ u.ticks → u.ticks < d.ticks → ¬l.Admitted roots u

-- What a search from `t` on comes to.
inductive Finds (l : Layout) (roots : Columns (Expr ι)) (limit : Int) (t : Instant) :
    Option Instant → Prop
  | first {d : Instant} : l.IsFirst roots limit t d → Finds l roots limit t (some d)
  | none :
    (∀ u, u.isWholeMinute → t.ticks ≤ u.ticks → u.year ≤ limit → ¬l.Admitted roots u) →
    Finds l roots limit t none

-- A search may begin later where nothing is passed over.
theorem Finds.of_le {x : Option Instant} (h : l.Finds roots limit d x) (hle : t.ticks ≤ d.ticks)
    (ho : d.offset = t.offset)
    (hn : ∀ u, u.isWholeMinute → t.ticks ≤ u.ticks → u.ticks < d.ticks → ¬l.Admitted roots u) :
    l.Finds roots limit t x := by
  cases h
  case first m hf =>
    refine .first { hf with le := hle.trans hf.le, offset := hf.offset.trans ho, least := ?_ }
    intro u hw hu hm
    rcases Nat.lt_or_ge u.ticks d.ticks with hlt | hge
    · exact hn u hw hu hlt
    · exact hf.least u hw hge hm
  case none hf =>
    refine .none fun u hw hu hy => ?_
    rcases Nat.lt_or_ge u.ticks d.ticks with hlt | hge
    · exact hn u hw hu hlt
    · exact hf u hw hge hy

section Compare

variable {κ : Type} {l' : Layout} {roots' : Columns (Expr κ)} {x x' : Option Instant}

-- Where more is admitted, something is found at least as early.
theorem Finds.mono (h : l.Finds roots limit t x) (h' : l'.Finds roots' limit t x')
    (ha : ∀ u, l.Admitted roots u → l'.Admitted roots' u) (hx : x = some d) :
    ∃ d', x' = some d' ∧ d'.ticks ≤ d.ticks ∧ d'.offset = d.offset := by
  subst hx
  cases h
  case first hd =>
    cases h'
    case first d' hd' =>
      refine ⟨d', rfl, Nat.not_lt.mp fun hlt => ?_, hd'.offset.trans hd.offset.symm⟩
      exact hd'.least d hd.whole hd.le hlt <| ha d hd.admitted
    case none hn => exact absurd (ha d hd.admitted) (hn d hd.whole hd.le hd.inReach)

-- What is found depends only on what is admitted.
theorem Finds.congr (h : l.Finds roots limit t x) (h' : l'.Finds roots' limit t x')
    (ha : ∀ u, l.Admitted roots u ↔ l'.Admitted roots' u) : x = x' := by
  cases x
  case none =>
    cases x'
    case none => rfl
    case some d' =>
      obtain ⟨d, hd, -⟩ := h'.mono h (fun u => (ha u).mpr) rfl
      cases hd
  case some d =>
    obtain ⟨d', rfl, hle, ho⟩ := h.mono h' (fun u => (ha u).mp) rfl
    obtain ⟨d, hd, hge, -⟩ := h'.mono h (fun u => (ha u).mpr) rfl
    cases hd
    exact congrArg some <| eq_of_ticks_eq (Nat.le_antisymm hge hle) ho.symm

end Compare

-- Every instant from `d` on lies past the years in reach.
theorem lt_of_limit_lt (hd : limit < d.year) (hu : u.year ≤ limit) : u.ticks < d.ticks := by
  by_contra h
  have := year_le_of_ticks_le (Nat.not_lt.mp h)
  omega

theorem mem_searchOrder (c : Column) : c ∈ searchOrder := by
  cases c <;> decide

-- Some passes in a row after each of which another is made: it moved the cursor, and not out of
-- reach.
inductive Repeats (l : Layout) (roots : Columns (Expr ι)) (limit : Int) :
    Nat → Instant → Instant → Prop
  | none {t : Instant} : Repeats l roots limit 0 t t
  | more {n : Nat} {t u : Instant} {p : Pass} :
    l.pass roots t = .ok p → p.exhausted = false → p.cursor.year ≤ limit → p.changed →
    Repeats l roots limit n p.cursor u → Repeats l roots limit (n + 1) t u

-- A pass from `t`, the `n`th of a search, that ends it: it leaves the calendar, it exhausts the
-- years or moves out of reach, or it leaves the cursor where it was.
inductive Last (l : Layout) (roots : Columns (Expr ι)) (limit : Int) (n : Nat) (t : Instant) :
    Outcome → Prop
  | offCalendar {f : Fault} :
    l.pass roots t = .error f → f ≠ .zeroStep → Last l roots limit n t .offCalendar
  | never {p : Pass} :
    l.pass roots t = .ok p → p.exhausted ∨ limit < p.cursor.year →
    Last l roots limit n t (.never limit n)
  | found {p : Pass} :
    l.pass roots t = .ok p → p.exhausted = false → p.cursor.year ≤ limit → p.changed = false →
    Last l roots limit n t (.found p.cursor n)

theorem pass_passed (h : l.WellFormed roots) (t : Instant) :
    l.Passed roots searchOrder false t (l.pass roots t) :=
  passOver_passed h

theorem covers_of_pass {p : Pass} (h : l.WellFormed roots) (hp : l.pass roots t = .ok p) :
    l.Covers roots searchOrder false t p := by
  have hc := pass_passed h t
  rwa [hp] at hc

theorem Covers.later {p : Pass} (h : l.Covers roots searchOrder false t p) (hc : p.changed) :
    t.ticks < p.cursor.ticks :=
  (h.moved hc).resolve_left nofun

-- By induction on what remains of the calendar: the cursor of a repeated pass lies later than that
-- of the one before.
theorem searchFrom_ends (h : l.WellFormed roots) (limit : Int) (passes : Nat) (t : Instant) :
    ∃ n u o, l.searchFrom roots limit passes t = .ok o ∧ l.Repeats roots limit n t u ∧
      l.Last roots limit (passes + n + 1) u o := by
  have hp := pass_passed h t
  rw [searchFrom]
  cases he : l.pass roots t
  case error f =>
    rw [he] at hp
    refine ⟨0, t, .offCalendar, ?_, .none, .offCalendar he hp.1⟩
    cases f
    case zeroStep => exact absurd rfl hp.1
    all_goals rfl
  case ok p =>
    dsimp only
    split
    case isTrue hend =>
      rw [Bool.or_eq_true, decide_eq_true_iff] at hend
      exact ⟨0, t, _, rfl, .none, .never he hend⟩
    case isFalse hend =>
      rw [Bool.or_eq_true, not_or, decide_eq_true_iff, Bool.not_eq_true, Int.not_lt] at hend
      split
      case isTrue hc =>
        exact ⟨0, t, _, rfl, .none, .found he hend.1 hend.2 <| by simpa using hc⟩
      case isFalse hc =>
        have hc : p.changed := by simpa using hc
        have hlt := (covers_of_pass h he).later hc
        rw [if_pos hlt]
        obtain ⟨n, u, o, ho, hr, hl⟩ := searchFrom_ends h limit (passes + 1) p.cursor
        refine ⟨n + 1, u, o, ho, .more he hend.1 hend.2 hc hr, ?_⟩
        rwa [show passes + (n + 1) + 1 = passes + 1 + n + 1 by omega]
termination_by t.remaining
decreasing_by exact remaining_lt hlt

-- Nothing is passed over by the passes before the last one.
theorem Repeats.finds {n : Nat} {x : Option Instant} (hr : l.Repeats roots limit n t u)
    (h : l.WellFormed roots) (hw : t.isWholeMinute)
    (hf : u.isWholeMinute → l.Finds roots limit u x) : l.Finds roots limit t x := by
  induction hr
  case none => exact hf hw
  case more hp _ _ _ _ hi =>
    have hc := covers_of_pass h hp
    exact (hi (hc.whole hw) hf).of_le hc.le hc.offset fun u _ hu hlt => hc.skipped u hu (.inr hlt)

theorem Last.finds {n : Nat} {o : Outcome} (hl : l.Last roots limit n t o) (h : l.WellFormed roots)
    (hw : t.isWholeMinute) : l.Finds roots limit t o.instant? := by
  cases hl
  case offCalendar f he hz =>
    have hp := pass_passed h t
    rw [he] at hp
    exact .none fun u _ hu _ => hp.2 u hu
  case never p he hend =>
    refine .none fun u _ hu hy => (covers_of_pass h he).skipped u hu ?_
    exact hend.imp_right fun hlimit => lt_of_limit_lt hlimit hy
  case found p he hx hy hc =>
    -- The pass left the cursor where it was: all columns admit it.
    have ⟨ht, ha⟩ := (covers_of_pass h he).still hc hx
    refine .first ?_
    rw [ht]
    exact ⟨Nat.le_refl _, hw, rfl, ht ▸ hy, fun c => ha c <| mem_searchOrder c,
      fun u _ hu hlt => absurd hu (Nat.not_le.mpr hlt)⟩

theorem searchFrom_finds {t : Instant} (h : l.WellFormed roots) (limit : Int) (passes : Nat)
    (hw : t.isWholeMinute) :
    ∃ o, l.searchFrom roots limit passes t = .ok o ∧ l.Finds roots limit t o.instant? := by
  obtain ⟨n, u, o, ho, hr, hl⟩ := searchFrom_ends h limit passes t
  exact ⟨o, ho, hr.finds h hw <| hl.finds h⟩

theorem search_finds (h : l.WellFormed roots) (t : Instant) :
    ∃ o, l.search roots t = .ok o ∧ l.Finds roots (l.searchLimit t) t o.instant? := by
  rw [search]
  rcases t.ceilMinute_least with ⟨d, hd, hle, hw, ho, hn⟩ | ⟨f, hf, hn⟩
  case inl =>
    rw [hd]
    dsimp only
    split
    case isTrue hy =>
      refine ⟨_, rfl, .none fun u hw hu hle => ?_⟩
      exact absurd (lt_of_limit_lt hy hle) (Nat.not_lt.mpr <| hn u hw hu)
    case isFalse =>
      have ⟨o, hok, hf⟩ := searchFrom_finds h (l.searchLimit t) 0 hw
      refine ⟨o, hok, hf.of_le hle ho fun u hw hu hlt => ?_⟩
      exact absurd (hn u hw hu) (Nat.not_le.mpr hlt)
  case inr =>
    rw [hf]
    exact ⟨_, rfl, .none fun u hw hu _ => absurd hu (Nat.not_le.mpr <| hn u hw)⟩

end Layout

end Cron
