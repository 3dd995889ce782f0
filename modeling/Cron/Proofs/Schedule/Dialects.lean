import Cron.Proofs.Expr.Renumber
import Cron.Proofs.Schedule.NextMatch
import Cron.Proofs.Schedule.RoundTrip

namespace Cron

variable {ι : Type} {l : Layout} {e : Expr ι} {c : Column} {s : Schedule} {t : Instant}

namespace Layout

-- The same years, but weekdays are numbered from 1 on.
def toQuartz (l : Layout) : Layout := { l with dialect := .quartz }

theorem sunday_toQuartz (h : l.dialect = .unix) : l.toQuartz.sunday = l.sunday + 1 := by
  simp [toQuartz, sunday, h]

theorem domain_toQuartz_of_ne (hc : c ≠ .dayOfWeek) : l.toQuartz.domain c = l.domain c := by
  cases c
  case dayOfWeek => exact absurd rfl hc
  all_goals rfl

theorem domain_toQuartz (h : l.dialect = .unix) :
    l.toQuartz.domain .dayOfWeek = (l.domain .dayOfWeek).up := by
  simp only [domain, sunday_toQuartz h, Domain.up, Int.add_assoc]

theorem valueAt_toQuartz_of_ne (hc : c ≠ .dayOfWeek) : l.toQuartz.valueAt c t = l.valueAt c t := by
  cases c
  case dayOfWeek => exact absurd rfl hc
  all_goals rfl

theorem valueAt_toQuartz (h : l.dialect = .unix) :
    l.toQuartz.valueAt .dayOfWeek t = l.valueAt .dayOfWeek t + 1 := by
  simp only [valueAt, sunday_toQuartz h, Int.add_assoc]

theorem Takes.toQuartz_of_ne {n : Int} (hc : c ≠ .dayOfWeek) (h : l.Takes c n) :
    l.toQuartz.Takes c n := by
  cases c
  case dayOfWeek => exact absurd rfl hc
  all_goals exact h

end Layout

open Layout

-- Counted up, a weekday expression fits; the width of a step is at least 1, and at most 6.
theorem Expr.Fits.toQuartz (hd : l.dialect = .unix) (h : e.Fits l .dayOfWeek .root) :
    e.renumber.Fits l.toQuartz .dayOfWeek .root := by
  have hs : l.sunday = 0 := by rw [sunday, hd]
  have hq : l.toQuartz.sunday = 1 := by rw [sunday_toQuartz hd, hs]; rfl
  refine h.renumber (fun n hn => ?_) (fun n h1 hn => ?_) (by simp)
  all_goals
    rw [takes_iff (by simp), Domain.mem_def] at hn ⊢
    simp only [domain, hs, hq] at hn ⊢
    omega

namespace Schedule

-- The columns of a schedule, its weekdays counted up.
def renumbered (s : Schedule) : Columns Shape :=
  s.shapes.set .dayOfWeek (s.root .dayOfWeek).shape.renumber

theorem get_renumbered (s : Schedule) :
    s.renumbered.get .dayOfWeek = (s.root .dayOfWeek).shape.renumber := by
  rw [renumbered, Columns.get_set, if_pos rfl]

theorem get_renumbered_of_ne (s : Schedule) (hc : c ≠ .dayOfWeek) :
    s.renumbered.get c = (s.root c).shape := by
  rw [renumbered, Columns.get_set, if_neg hc.symm, get_shapes]

theorem Sound.fits_renumbered (h : s.Sound) (hd : s.layout.dialect = .unix) (c : Column) :
    (s.renumbered.get c).Fits s.layout.toQuartz c .root := by
  have hf := (h.proper c).fits
  by_cases hc : c = .dayOfWeek
  case pos =>
    subst hc
    rw [get_renumbered]
    exact (Expr.fits_shape_iff.mpr hf).toQuartz hd
  case neg =>
    rw [get_renumbered_of_ne s hc, Expr.fits_shape_iff]
    exact hf.of_takes fun _ => .toQuartz_of_ne hc

-- A schedule of given columns can be opened: its text reads back.
theorem reachable_ofShapes {shapes : Columns Shape} (hy : 1 ≤ l.firstYear)
    (hf : ∀ c, (shapes.get c).Fits l c .root) : Reachable (ofShapes l shapes) := by
  have hs := (planted_ofShapes hf).sound
  have hl := layout_ofShapes l shapes
  have hr : read? l (some (.ofString (ofShapes l shapes).cron)) = .ok (ofShapes l shapes) := by
    rw [read?, read, readColumns_cron fun c => hl ▸ (hs.proper c).fits, shapes_ofShapes]
    rfl
  exact .opened hy hr

-- One schedule is another one rewritten for weekdays that are numbered from 1 on.
structure Rewrites (s q : Schedule) : Prop where
  sound   : s.Sound
  year    : 1 ≤ s.layout.firstYear
  dialect : s.layout.dialect = .unix
  layout  : q.layout = s.layout.toQuartz
  shapes  : q.shapes = s.renumbered

namespace Rewrites

variable {s q : Schedule}

theorem shape_root (h : s.Rewrites q) (c : Column) : (q.root c).shape = s.renumbered.get c := by
  rw [← get_shapes, h.shapes]

theorem wellFormed (h : s.Rewrites q) : q.layout.WellFormed q.roots where
  fits c := by
    have hf : (q.root c).Fits s.layout.toQuartz c .root := by
      rw [← Expr.fits_shape_iff, h.shape_root c]
      exact h.sound.fits_renumbered h.dialect c
    exact h.layout ▸ hf
  lower c := by
    by_cases hc : c = .dayOfWeek
    case pos =>
      subst hc
      exact q.layout.sunday_mem.1
    case neg =>
      rw [h.layout, domain_toQuartz_of_ne hc]
      exact (h.sound.wellFormed h.year).lower c

theorem admits_iff (h : s.Rewrites q) (c : Column) (t : Instant) :
    q.layout.Admits c (q.root c) t ↔ s.layout.Admits c (s.root c) t := by
  rw [Admits, Admits, h.layout, ← Expr.holds_shape_iff, h.shape_root c]
  by_cases hc : c = .dayOfWeek
  case pos =>
    subst hc
    have hf := Expr.fits_shape_iff.mpr (h.sound.proper .dayOfWeek).fits
    rw [get_renumbered, domain_toQuartz h.dialect, valueAt_toQuartz h.dialect,
      hf.holds_renumber_iff, Expr.holds_shape_iff]
  case neg =>
    rw [get_renumbered_of_ne s hc, domain_toQuartz_of_ne hc, valueAt_toQuartz_of_ne hc,
      Expr.holds_shape_iff]

theorem admitted_iff (h : s.Rewrites q) (t : Instant) :
    q.layout.Admitted q.roots t ↔ s.layout.Admitted s.roots t :=
  forall_congr' fun c => h.admits_iff c t

theorem matches?_eq (h : s.Rewrites q) (t : Instant) : q.matches? t = s.matches? t := by
  obtain ⟨b, hb, hi⟩ := Schedule.matches?_eq (h.sound.wellFormed h.year) t
  obtain ⟨b', hb', hi'⟩ := Schedule.matches?_eq h.wellFormed t
  rw [hb, hb', Bool.eq_iff_iff.mpr <| hi'.trans <| (h.admitted_iff t).trans hi.symm]

theorem next?_eq (h : s.Rewrites q) (t : Instant) : q.next? t = s.next? t := by
  obtain ⟨o, ho, hf⟩ := Layout.search_finds (h.sound.wellFormed h.year) t
  obtain ⟨o', ho', hf'⟩ := Layout.search_finds h.wellFormed t
  have hlimit : q.layout.searchLimit t = s.layout.searchLimit t := by
    rw [h.layout]
    rfl
  have he : o'.instant? = o.instant? := (hlimit ▸ hf').congr hf h.admitted_iff
  rw [next?, search, ho', next?, search, ho, Except.map, Except.map, he]

theorem describe_eq (h : s.Rewrites q) :
    q.layout.describe .dayOfWeek (q.root .dayOfWeek) =
      s.layout.describe .dayOfWeek (s.root .dayOfWeek) := by
  have hf := Expr.fits_shape_iff.mpr (h.sound.proper .dayOfWeek).fits
  rw [← Expr.describe_shape, h.shape_root, get_renumbered, h.layout,
    describe_renumber (sunday_toQuartz h.dialect) hf, Expr.describe_shape]

end Rewrites

-- A schedule can be rewritten for weekdays that are numbered from 1 on. The rewritten schedule says
-- the same about every instant, finds the same one next, and has the same words for its weekdays.
theorem dialects_agree (h : Reachable s) (hd : s.layout.dialect = .unix) :
    (∃ q, Reachable q ∧ q.layout = s.layout.toQuartz ∧ q.shapes = s.renumbered) ∧
    ∀ q : Schedule, q.layout = s.layout.toQuartz → q.shapes = s.renumbered →
      (∀ t, q.matches? t = s.matches? t ∧ q.next? t = s.next? t) ∧
      q.layout.describe .dayOfWeek (q.root .dayOfWeek) =
        s.layout.describe .dayOfWeek (s.root .dayOfWeek) := by
  constructor
  · exact ⟨ofShapes s.layout.toQuartz s.renumbered,
      reachable_ofShapes h.one_le_firstYear (h.sound.fits_renumbered hd), layout_ofShapes _ _,
      shapes_ofShapes _ _⟩
  · intro q hl hs
    have hr : s.Rewrites q := ⟨h.sound, h.one_le_firstYear, hd, hl, hs⟩
    exact ⟨fun t => ⟨hr.matches?_eq t, hr.next?_eq t⟩, hr.describe_eq⟩

theorem dialects_agree_around_week_end :
    let s := (unrestricted ⟨.unix, 2024, 100, 900⟩).after (.add 5 "FRI-MON,1-5/2")
    s.renumbered.dayOfWeek = .list () [.range () (.value () 6) (.value () 2),
      .step () (.range () (.value () 2) (.value () 6)) (.value () 2)] ∧
    (∃ q, Reachable q ∧ q.layout = ⟨.quartz, 2024, 100, 900⟩ ∧ q.shapes = s.renumbered) ∧
    ∀ q : Schedule, q.layout = ⟨.quartz, 2024, 100, 900⟩ → q.shapes = s.renumbered →
      (∀ t, q.matches? t = s.matches? t ∧ q.next? t = s.next? t) ∧
      q.layout.describe .dayOfWeek (q.root .dayOfWeek) =
        s.layout.describe .dayOfWeek (s.root .dayOfWeek) := by
  intro s
  have h := Reachable.unrestricted (l := ⟨.unix, 2024, 100, 900⟩) (by decide)
  have hl : s.layout = ⟨.unix, 2024, 100, 900⟩ := rfl
  have hd : s.layout.dialect = .unix := by rw [hl]
  exact ⟨rfl, dialects_agree (h.edited (.add 5 "FRI-MON,1-5/2")) hd⟩

end Schedule

end Cron
