import Cron.Proofs.Except
import Cron.Search

-- One calendar, shown by several clocks. A search reads and moves the local calendar only, so on
-- another clock it makes the same steps.

namespace Cron

variable {ι : Type} {l : Layout} {roots : Columns (Expr ι)} {cs : List Column} {c : Column}
variable {e : Expr ι} {t u : Instant} {zone : Option Int}

namespace Instant

-- What a clock with a given offset, or with none, shows when another one shows `t`.
def inZone (zone : Option Int) (t : Instant) : Instant := { t with offset := zone }

theorem month_inZone (zone : Option Int) (t : Instant) : (t.inZone zone).month = t.month := rfl

theorem inZone_offset (t : Instant) : t.inZone t.offset = t := rfl

theorem inZone_inj (ho : u.offset = t.offset) : u.inZone zone = t.inZone zone ↔ u = t := by
  refine ⟨fun h => ?_, fun h => h ▸ rfl⟩
  calc
    u = (u.inZone zone).inZone t.offset := by rw [← ho]; rfl
    _ = (t.inZone zone).inZone t.offset := by rw [h]
    _ = t                               := rfl

section Moves

theorem ofTicks_inZone (zone : Option Int) (t : Instant) (n : Int) :
    (t.inZone zone).ofTicks n = (t.ofTicks n).map (inZone zone) := by
  rw [ofTicks, ofTicks]
  cases Date.ofOrdinal (n / dayMicros) <;> rfl

theorem add_inZone (zone : Option Int) (t : Instant) (micros : Int) :
    (t.inZone zone).add micros = (t.add micros).map (inZone zone) :=
  ofTicks_inZone zone t _

theorem addDays_inZone (zone : Option Int) (t : Instant) (days : Int) :
    (t.inZone zone).midnight.addDays days = (t.midnight.addDays days).map (inZone zone) :=
  ofTicks_inZone zone t.midnight _

theorem startOf_inZone (zone : Option Int) (t : Instant) (x : Except Fault Date) :
    x.map (t.inZone zone).startOf = (x.map t.startOf).map (inZone zone) := by
  cases x <;> rfl

theorem atClock_inZone (zone : Option Int) (t : Instant) (hour minute : Int) :
    (t.inZone zone).atClock hour minute = (t.atClock hour minute).map (inZone zone) := by
  rw [atClock, atClock]
  split
  · split <;> rfl
  · rfl

theorem ceilMinute_inZone (zone : Option Int) (t : Instant) :
    (t.inZone zone).ceilMinute = t.ceilMinute.map (inZone zone) := by
  have hw : (t.inZone zone).isWholeMinute = t.isWholeMinute := rfl
  rw [ceilMinute, ceilMinute, hw]
  split
  · rfl
  · exact ofTicks_inZone zone t _

end Moves

end Instant

open Instant

def Advance.inZone (zone : Option Int) (a : Advance) : Advance :=
  { a with cursor := a.cursor.inZone zone }

def Pass.inZone (zone : Option Int) (p : Pass) : Pass := { p with cursor := p.cursor.inZone zone }

def Outcome.inZone (zone : Option Int) : Outcome → Outcome
  | .found t passes => .found (t.inZone zone) passes
  | o => o

theorem Outcome.instant?_inZone (zone : Option Int) (o : Outcome) :
    (o.inZone zone).instant? = o.instant?.map (Instant.inZone zone) := by
  cases o <;> rfl

namespace Layout

theorem valueAt_inZone (zone : Option Int) (l : Layout) (c : Column) (t : Instant) :
    l.valueAt c (t.inZone zone) = l.valueAt c t := by
  cases c <;> rfl

theorem admits_inZone (zone : Option Int) (l : Layout) (c : Column) (e : Expr ι) (t : Instant) :
    l.admits c e (t.inZone zone) = l.admits c e t := by
  rw [admits, valueAt_inZone, admits]

theorem moveTo_inZone (zone : Option Int) (c : Column) (t : Instant) (n : Int) :
    moveTo c (t.inZone zone) n = (moveTo c t n).map (Instant.inZone zone) := by
  cases c
  case minute     => exact atClock_inZone zone t _ _
  case hour       => exact atClock_inZone zone t _ _
  case dayOfMonth => exact startOf_inZone zone t _
  case month      => exact startOf_inZone zone t _
  case dayOfWeek  => rfl
  case year       => exact startOf_inZone zone t _

theorem roll_inZone (zone : Option Int) (c : Column) (t : Instant) :
    roll c (t.inZone zone) = (roll c t).map (Instant.inZone zone) := by
  cases c
  case minute => exact ofTicks_inZone zone t _
  case hour   => exact addDays_inZone zone t 1
  case dayOfMonth =>
    rw [roll, roll, month_inZone]
    split <;> exact startOf_inZone zone t _
  case month      => exact startOf_inZone zone t _
  case dayOfWeek  => rfl
  case year       => rfl

theorem advanceWeekday_inZone (zone : Option Int) (l : Layout) (e : Expr ι) (t : Instant) :
    l.advanceWeekday e (t.inZone zone) = (l.advanceWeekday e t).map (Advance.inZone zone) := by
  rw [advanceWeekday, advanceWeekday, valueAt_inZone]
  cases l.nextValue .dayOfWeek e (l.valueAt .dayOfWeek t)
  case error => rfl
  case ok n =>
    rw [Except.ok_bind, Except.ok_bind]
    split
    · rfl
    · rw [addDays_inZone]
      cases t.midnight.addDays (daysAhead (l.valueAt .dayOfWeek t) n) <;> rfl

theorem advance_inZone (zone : Option Int) (l : Layout) (c : Column) (e : Expr ι) (t : Instant) :
    l.advance c e (t.inZone zone) = (l.advance c e t).map (Advance.inZone zone) := by
  by_cases hc : c = .dayOfWeek
  case pos =>
    subst hc
    exact advanceWeekday_inZone zone l e t
  case neg =>
    have hr (n : Int) : reaches c (t.inZone zone) n = reaches c t n := by cases c <;> rfl
    simp only [advance, valueAt_inZone, hr, moveTo_inZone]
    cases l.nextValue c e (l.valueAt c t)
    case error => rfl
    case ok n =>
      simp only [Except.ok_bind]
      split
      · rfl
      · split
        · rfl
        · cases moveTo c t n <;> rfl

-- In its own zone the cursor is as it is, so it does not leave it.
theorem offset_of_advance {a : Advance} (h : l.advance c e t = .ok a) :
    a.cursor.offset = t.offset := by
  have hz := advance_inZone t.offset l c e t
  rw [inZone_offset, h] at hz
  have ha : a = a.inZone t.offset := Except.ok.inj hz
  rw [ha]
  rfl

theorem rolled_inZone (zone : Option Int) (x : Except Fault Instant) :
    (x.map (Instant.inZone zone)).map (fun next => (⟨next, true, false⟩ : Pass)) =
      (x.map fun next => ⟨next, true, false⟩).map (Pass.inZone zone) := by
  cases x <;> rfl

-- By induction on the columns that are left.
theorem passOver_inZone (zone : Option Int) (roots : Columns (Expr ι)) (cs : List Column)
    (changed : Bool) (t : Instant) :
    l.passOver roots cs changed (t.inZone zone) =
      (l.passOver roots cs changed t).map (Pass.inZone zone) := by
  induction cs generalizing changed t
  case nil => rfl
  case cons c cs hi =>
    rw [passOver, passOver, advance_inZone]
    cases ha : l.advance c (roots.get c) t
    case error => rfl
    case ok a =>
      have hok : (a.inZone zone).ok = a.ok := rfl
      have hcursor : (a.inZone zone).cursor = a.cursor.inZone zone := rfl
      have hne : (a.cursor.inZone zone != t.inZone zone) = (a.cursor != t) := by
        rw [Bool.eq_iff_iff, bne_iff_ne, bne_iff_ne, ne_eq, inZone_inj (offset_of_advance ha)]
      rw [Except.map, Except.ok_bind, Except.ok_bind, hok, hcursor, hne]
      by_cases hmet : a.ok
      case pos =>
        rw [if_pos hmet, if_pos hmet]
        exact hi _ _
      case neg =>
        rw [if_neg hmet, if_neg hmet]
        have hr := roll_inZone zone c t
        cases c
        case year      => rfl
        case dayOfWeek => rfl
        all_goals exact (congrArg _ hr).trans (rolled_inZone zone _)

-- By induction on what remains of the calendar, which is the same on every clock.
theorem searchFrom_inZone (zone : Option Int) (roots : Columns (Expr ι)) (limit : Int)
    (passes : Nat) (t : Instant) :
    l.searchFrom roots limit passes (t.inZone zone) =
      (l.searchFrom roots limit passes t).map (Outcome.inZone zone) := by
  have hp : l.pass roots (t.inZone zone) = (l.pass roots t).map (Pass.inZone zone) :=
    passOver_inZone zone roots searchOrder false t
  rw [searchFrom, searchFrom, hp]
  cases l.pass roots t
  case error f => cases f <;> rfl
  case ok p =>
    have hm : (Except.ok p : Except Fault Pass).map (Pass.inZone zone) = .ok (p.inZone zone) := rfl
    rw [hm]
    simp only [apply_ite (Except.map (Outcome.inZone zone))]
    refine if_congr Iff.rfl rfl <| if_congr Iff.rfl rfl ?_
    by_cases hlt : t.ticks < p.cursor.ticks
    case pos =>
      have hrest := searchFrom_inZone zone roots limit (passes + 1) p.cursor
      exact (if_pos hlt).trans <| hrest.trans (if_pos hlt).symm
    case neg => exact (if_neg hlt).trans (if_neg hlt).symm
termination_by t.remaining
decreasing_by exact remaining_lt hlt

theorem search_inZone (zone : Option Int) (roots : Columns (Expr ι)) (t : Instant) :
    l.search roots (t.inZone zone) = (l.search roots t).map (Outcome.inZone zone) := by
  have hl : l.searchLimit (t.inZone zone) = l.searchLimit t := rfl
  rw [search, search, ceilMinute_inZone, hl]
  cases t.ceilMinute
  case error => rfl
  case ok cursor =>
    have hm : (Except.ok cursor : Except Fault Instant).map (Instant.inZone zone) =
      .ok (cursor.inZone zone) := rfl
    rw [hm]
    simp only [apply_ite (Except.map (Outcome.inZone zone))]
    exact if_congr Iff.rfl rfl <| searchFrom_inZone zone roots _ 0 cursor

end Layout

end Cron
