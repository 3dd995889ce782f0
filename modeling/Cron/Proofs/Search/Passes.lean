import Cron.Proofs.Search.Columns
import Cron.Search

namespace Cron.Layout

open Instant

variable {ι : Type} {l : Layout} {roots : Columns (Expr ι)} {cs : List Column} {c : Column}
variable {t u : Instant} {changed : Bool} {limit : Int}

-- Whether all columns admit an instant.
def Admitted (l : Layout) (roots : Columns (Expr ι)) (t : Instant) : Prop :=
  ∀ c, l.Admits c (roots.get c) t

-- Trees that the columns can have, none of which reaches below zero.
structure WellFormed (l : Layout) (roots : Columns (Expr ι)) : Prop where
  fits  : ∀ c, (roots.get c).Fits l c .root
  lower : ∀ c, 0 ≤ (l.domain c).lower

section Pass

-- What a pass from `t` over some columns comes to. Nothing that all columns admit lies between `t`
-- and where it ends, or from `t` on if it exhausts the years. It ends where it began only if all of
-- its columns admit `t`.
structure Covers (l : Layout) (roots : Columns (Expr ι)) (cs : List Column) (changed : Bool)
    (t : Instant) (p : Pass) : Prop where
  whole   : t.isWholeMinute → p.cursor.isWholeMinute
  offset  : p.cursor.offset = t.offset
  le      : t.ticks ≤ p.cursor.ticks
  skipped : ∀ u, t.ticks ≤ u.ticks → p.exhausted ∨ u.ticks < p.cursor.ticks → ¬l.Admitted roots u
  kept    : changed → p.changed
  moved   : p.changed → changed ∨ t.ticks < p.cursor.ticks
  still   : p.changed = false → p.exhausted = false →
    p.cursor = t ∧ ∀ c ∈ cs, l.Admits c (roots.get c) t

theorem Covers.stay {p : Pass} (h : l.Covers roots cs changed t p)
    (ha : l.Admits c (roots.get c) t) : l.Covers roots (c :: cs) changed t p where
  whole   := h.whole
  offset  := h.offset
  le      := h.le
  skipped := h.skipped
  kept    := h.kept
  moved   := h.moved
  still hc he := by
    have ⟨ht, hcs⟩ := h.still hc he
    refine ⟨ht, fun d hd => ?_⟩
    rcases List.mem_cons.mp hd with rfl | hd
    · exact ha
    · exact hcs d hd

theorem Covers.move {p : Pass} {d : Instant} (h : l.Covers roots cs true d p)
    (hl : Leads t (.ok d) (¬l.Admits c (roots.get c) ·)) :
    l.Covers roots (c :: cs) changed t p where
  whole _ := h.whole (hl.later d rfl).2.1
  offset := h.offset.trans (hl.later d rfl).2.2
  le     := Nat.le_trans (Nat.le_of_lt (hl.later d rfl).1) h.le
  skipped u hu hp := by
    rcases Nat.lt_or_ge u.ticks d.ticks with hlt | hge
    · exact fun ha => hl.between u hu hlt (ha c)
    · exact h.skipped u hge hp
  kept _  := h.kept rfl
  moved _ := .inr <| Nat.lt_of_lt_of_le (hl.later d rfl).1 h.le
  still hc := absurd (h.kept rfl) (by simp [hc])

-- A pass that ends at a later instant because a column is not met within its unit.
theorem Covers.of_leads {d : Instant} (hl : Leads t (.ok d) (¬l.Admits c (roots.get c) ·)) :
    l.Covers roots (c :: cs) changed t ⟨d, true, false⟩ where
  whole _ := (hl.later d rfl).2.1
  offset  := (hl.later d rfl).2.2
  le      := Nat.le_of_lt (hl.later d rfl).1
  skipped u hu hp ha := hl.between u hu (hp.resolve_left nofun) (ha c)
  kept _  := rfl
  moved _ := .inr (hl.later d rfl).1
  still   := nofun

-- What a pass comes to, be it that the calendar ends first.
def Passed (l : Layout) (roots : Columns (Expr ι)) (cs : List Column) (changed : Bool)
    (t : Instant) : Except Fault Pass → Prop
  | .ok p    => l.Covers roots cs changed t p
  | .error f => f ≠ .zeroStep ∧ ∀ u, t.ticks ≤ u.ticks → ¬l.Admitted roots u

theorem Passed.of_leads {x : Except Fault Instant}
    (hl : Leads t x (¬l.Admits c (roots.get c) ·)) :
    l.Passed roots (c :: cs) changed t (x.map fun d => ⟨d, true, false⟩) := by
  cases x
  case ok d    => exact Covers.of_leads hl
  case error f =>
    exact ⟨fun hf => hl.fault <| hf ▸ rfl, fun u hu ha => hl.between u hu trivial (ha c)⟩

theorem Passed.move {x : Except Fault Pass} {d : Instant} (h : l.Passed roots cs true d x)
    (hl : Leads t (.ok d) (¬l.Admits c (roots.get c) ·)) :
    l.Passed roots (c :: cs) changed t x := by
  cases x
  case ok p => exact Covers.move h hl
  case error f =>
    have ⟨hz, hn⟩ := h
    refine ⟨hz, fun u hu ha => ?_⟩
    rcases Nat.lt_or_ge u.ticks d.ticks with hlt | hge
    · exact hl.between u hu hlt (ha c)
    · exact hn u hge ha

theorem Passed.stay {x : Except Fault Pass} (h : l.Passed roots cs changed t x)
    (ha : l.Admits c (roots.get c) t) : l.Passed roots (c :: cs) changed t x := by
  cases x
  case ok p    => exact Covers.stay h ha
  case error f => exact h

-- By induction on the columns that are left, each of which contributes one step.
theorem passOver_passed (h : l.WellFormed roots) :
    l.Passed roots cs changed t (l.passOver roots cs changed t) := by
  induction cs generalizing t changed
  case nil =>
    refine ⟨id, rfl, Nat.le_refl _, fun u hu hp => ?_, id, .inl, fun _ _ => ⟨rfl, nofun⟩⟩
    exact absurd hu (Nat.not_le.mpr <| hp.resolve_left nofun)
  case cons c cs hi =>
    rw [passOver]
    have hs := advance_step (h.fits c) (h.lower c) t
    generalize l.advance c (roots.get c) t = x at hs
    cases hs
    case stay ha =>
      have he : (changed || t != t) = changed := by simp
      simp only [bind, Except.bind, if_true, he]
      exact hi.stay ha
    case move d hl =>
      have hlt := (hl.later d rfl).1
      have he : (changed || d != t) = true := by
        rw [Bool.or_eq_true, bne_iff_ne]
        exact .inr fun he => absurd hlt (he ▸ Nat.lt_irrefl _)
      simp only [bind, Except.bind, if_true, he]
      exact hi.move hl
    case overshoot d hc hl =>
      subst hc
      simp only [bind, Except.bind, Bool.false_eq_true, if_false]
      exact Covers.of_leads hl
    case roll hc hy hl =>
      simp only [bind, Except.bind, Bool.false_eq_true, if_false]
      cases c
      case dayOfWeek => exact absurd rfl hc
      case year      => exact absurd rfl hy
      all_goals exact Passed.of_leads hl
    case never hc hn =>
      subst hc
      refine ⟨id, rfl, Nat.le_refl _, fun u hu _ ha => ?_, id, .inl, nofun⟩
      exact hn u hu (ha .year)
    case fault f hz hn => exact ⟨hz, fun u hu ha => hn u hu (ha c)⟩

end Pass

end Cron.Layout
