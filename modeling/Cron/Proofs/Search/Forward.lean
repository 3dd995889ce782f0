import Cron.Proofs.Except
import Cron.Proofs.Expr.Defined
import Cron.Proofs.Search.First

-- What holds of a search over any columns that may have been written, wherever their years begin:
-- it ends with an outcome, and it never goes back. Nothing is said about what it finds.

namespace Cron

variable {ι : Type} {l : Layout} {roots : Columns (Expr ι)} {cs : List Column} {c : Column}
variable {e : Expr ι} {t d : Instant} {changed : Bool} {limit : Int} {passes : Nat}

namespace Date

theorem of_ne_zeroStep (year month day : Int) : of year month day ≠ .error .zeroStep := by
  rw [of]
  split
  · split
    · split <;> simp
    · simp
  · simp

theorem ofOrdinal_ne_zeroStep (n : Int) : ofOrdinal n ≠ .error .zeroStep := by
  rw [ofOrdinal]
  split
  · exact of_ne_zeroStep _ _ _
  · simp

end Date

namespace Instant

-- An instant on the same clock that is not earlier.
structure Reaches (t d : Instant) : Prop where
  le     : t.ticks ≤ d.ticks
  offset : d.offset = t.offset

theorem Reaches.refl (t : Instant) : t.Reaches t := ⟨Nat.le_refl _, rfl⟩

theorem Reaches.trans {u : Instant} (h : t.Reaches d) (h' : d.Reaches u) : t.Reaches u :=
  ⟨h.le.trans h'.le, h'.offset.trans h.offset⟩

theorem reaches_of_ceilMinute (h : t.ceilMinute = .ok d) : t.Reaches d := by
  rcases t.ceilMinute_least with ⟨d', hd, hle, -, ho, -⟩ | ⟨f, hf, -⟩
  · cases hd.symm.trans h
    exact ⟨hle, ho⟩
  · cases hf.symm.trans h

-- What is computed from `t` stays on the clock of `t`; if it fails, then for the calendar's sake.
structure Onward (t : Instant) (x : Except Fault Instant) : Prop where
  fault  : x ≠ .error .zeroStep
  offset : ∀ d, x = .ok d → d.offset = t.offset

theorem onward_ok (h : d.offset = t.offset) : Onward t (.ok d) where
  fault       := nofun
  offset _ hd := by cases hd; exact h

theorem onward_error {f : Fault} (h : f ≠ .zeroStep) : Onward t (.error f) where
  fault hf := h <| by cases hf; rfl
  offset   := nofun

theorem onward_startOf {x : Except Fault Date} (h : x ≠ .error .zeroStep) :
    Onward t (x.map t.startOf) := by
  cases x
  case ok      => exact onward_ok rfl
  case error f => exact onward_error fun hf => h <| hf ▸ rfl

theorem onward_ofTicks (t : Instant) (n : Int) : Onward t (t.ofTicks n) := by
  have hz := Date.ofOrdinal_ne_zeroStep (n / dayMicros)
  rw [ofTicks]
  generalize Date.ofOrdinal (n / dayMicros) = x at hz
  cases x
  case ok      => exact onward_ok rfl
  case error f => exact onward_error fun hf => hz <| hf ▸ rfl

theorem onward_addDays (t : Instant) (days : Int) : Onward t (t.midnight.addDays days) where
  fault       := (onward_ofTicks t.midnight _).fault
  offset d hd := (onward_ofTicks t.midnight _).offset d hd

theorem onward_atClock (t : Instant) (hour minute : Int) : Onward t (t.atClock hour minute) := by
  rw [atClock]
  split
  · split
    · exact onward_ok rfl
    · exact onward_error (by simp)
  · exact onward_error (by simp)

end Instant

namespace Layout

open Instant

theorem onward_moveTo (c : Column) (t : Instant) (n : Int) : Onward t (moveTo c t n) := by
  cases c
  case minute     => exact onward_atClock t _ _
  case hour       => exact onward_atClock t _ _
  case dayOfMonth => exact onward_startOf <| Date.of_ne_zeroStep _ _ _
  case month      => exact onward_startOf <| Date.of_ne_zeroStep _ _ _
  case dayOfWeek  => exact onward_ok rfl
  case year       => exact onward_startOf <| Date.of_ne_zeroStep _ _ _

theorem onward_roll (c : Column) (t : Instant) : Onward t (roll c t) := by
  cases c
  case minute => exact onward_ofTicks t _
  case hour   => exact onward_addDays t 1
  case dayOfMonth =>
    rw [roll]
    split <;> exact onward_startOf <| Date.of_ne_zeroStep _ _ _
  case month      => exact onward_startOf <| Date.of_ne_zeroStep _ _ _
  case dayOfWeek  => exact onward_ok rfl
  case year       => exact onward_ok rfl

theorem onward_advance (hf : e.Fits l c .root) (t : Instant) :
    Onward t ((l.advance c e t).map Advance.cursor) := by
  have ⟨r, hr⟩ := hf.next?_eq_some (l.domain c) (l.valueAt c t)
  by_cases hc : c = .dayOfWeek
  case pos =>
    subst hc
    have hn : l.nextValue .dayOfWeek e (l.valueAt .dayOfWeek t) = .ok r := by rw [nextValue, hr]
    have hd := onward_addDays t (daysAhead (l.valueAt .dayOfWeek t) r)
    rw [advance, advanceWeekday, hn, Except.ok_bind]
    split
    · exact onward_ok rfl
    · generalize t.midnight.addDays (daysAhead (l.valueAt .dayOfWeek t) r) = x at hd
      cases x
      case ok d    => exact onward_ok <| hd.offset d rfl
      case error f => exact onward_error fun hz => hd.fault <| hz ▸ rfl
  case neg =>
    have hd := onward_moveTo c t r
    rw [advance_eq hc hr]
    split
    · exact onward_ok rfl
    · split
      · exact onward_ok rfl
      · generalize moveTo c t r = x at hd
        cases x
        case ok d    => exact onward_ok <| hd.offset d rfl
        case error f => exact onward_error fun hz => hd.fault <| hz ▸ rfl

-- What a pass comes to: it stays on the clock, and if it reports no change there was none.
structure Passing (t : Instant) (changed : Bool) (x : Except Fault Pass) : Prop where
  fault  : x ≠ .error .zeroStep
  offset : ∀ p, x = .ok p → p.cursor.offset = t.offset
  still  : ∀ p, x = .ok p → p.changed = false → p.cursor = t ∧ changed = false

theorem passing_ok {p : Pass} (ho : p.cursor.offset = t.offset)
    (hs : p.changed = false → p.cursor = t ∧ changed = false) : Passing t changed (.ok p) where
  fault       := nofun
  offset _ hp := by cases hp; exact ho
  still _ hp  := by cases hp; exact hs

theorem passing_error {f : Fault} (h : f ≠ .zeroStep) : Passing t changed (.error f) where
  fault hf := h <| by cases hf; rfl
  offset   := nofun
  still    := nofun

theorem passing_roll {x : Except Fault Instant} (h : Onward t x) :
    Passing t changed (x.map fun next => ⟨next, true, false⟩) := by
  cases x
  case ok d    => exact passing_ok (h.offset d rfl) nofun
  case error f => exact passing_error fun hz => h.fault <| hz ▸ rfl

-- By induction on the columns that are left.
theorem passing_passOver (hf : ∀ c, (roots.get c).Fits l c .root) (cs : List Column)
    (changed : Bool) (t : Instant) : Passing t changed (l.passOver roots cs changed t) := by
  induction cs generalizing t changed
  case nil => exact passing_ok rfl fun hc => ⟨rfl, hc⟩
  case cons c cs hi =>
    have ha := onward_advance (hf c) t
    rw [passOver]
    cases hx : l.advance c (roots.get c) t
    case error f =>
      rw [hx] at ha
      exact passing_error fun hz => ha.fault <| hz ▸ rfl
    case ok a =>
      have ho : a.cursor.offset = t.offset := ha.offset a.cursor <| by rw [hx]; rfl
      rw [Except.ok_bind]
      split
      · have hp := hi (changed || a.cursor != t) a.cursor
        refine ⟨hp.fault, fun p h => (hp.offset p h).trans ho, fun p h hc => ?_⟩
        obtain ⟨hcur, hch⟩ := hp.still p h hc
        rw [Bool.or_eq_false_iff, bne_eq_false_iff_eq] at hch
        exact ⟨hcur.trans hch.2, hch.1⟩
      · cases c
        case year       => exact passing_ok rfl fun hc => ⟨rfl, hc⟩
        case dayOfWeek  => exact passing_ok ho (by simp)
        all_goals exact passing_roll <| onward_roll _ t

-- A repeated pass begins later than the one before, and what is found is where the last one began.
theorem searchFrom_reaches (hf : ∀ c, (roots.get c).Fits l c .root) (limit : Int) (passes : Nat)
    (t : Instant) : ∃ o, l.searchFrom roots limit passes t = .ok o ∧
      ∀ d, o.instant? = some d → t.Reaches d := by
  have hp : Passing t false (l.pass roots t) := passing_passOver hf searchOrder false t
  rw [searchFrom]
  cases hx : l.pass roots t
  case error f =>
    rw [hx] at hp
    cases f
    case zeroStep => exact absurd rfl hp.fault
    all_goals exact ⟨_, rfl, fun _ hd => by cases hd⟩
  case ok p =>
    rw [hx] at hp
    dsimp only
    split
    · exact ⟨_, rfl, fun _ hd => by cases hd⟩
    · split
      case isTrue hc =>
        refine ⟨_, rfl, fun d hd => ?_⟩
        cases hd
        rw [(hp.still p rfl (by simpa using hc)).1]
        exact .refl t
      case isFalse =>
        split
        case isTrue hlt =>
          obtain ⟨o, ho, hr⟩ := searchFrom_reaches hf limit (passes + 1) p.cursor
          refine ⟨o, ho, fun d hd => .trans ⟨Nat.le_of_lt hlt, hp.offset p rfl⟩ (hr d hd)⟩
        case isFalse => exact ⟨_, rfl, fun _ hd => by cases hd⟩
termination_by t.remaining
decreasing_by exact remaining_lt ‹_›

theorem search_reaches (hf : ∀ c, (roots.get c).Fits l c .root) (t : Instant) :
    ∃ o, l.search roots t = .ok o ∧ ∀ d, o.instant? = some d → t.Reaches d := by
  rw [search]
  cases hx : t.ceilMinute
  case error => exact ⟨_, rfl, fun _ hd => by cases hd⟩
  case ok cursor =>
    dsimp only
    split
    · exact ⟨_, rfl, fun _ hd => by cases hd⟩
    · obtain ⟨o, ho, hr⟩ := searchFrom_reaches hf (l.searchLimit t) 0 cursor
      exact ⟨o, ho, fun d hd => (reaches_of_ceilMinute hx).trans (hr d hd)⟩

end Layout

end Cron
