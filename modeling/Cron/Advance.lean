import Cron.Calendar.Instant
import Cron.Expr.Next
import Cron.Layout

-- One column on the calendar. A cursor is moved forward until the column admits it, as long as the
-- unit within which the column counts does not change; `roll` begins the next such unit.
--
-- A weekday counts within no unit of its own: it moves the cursor by whole days, and reports
-- whether the month stayed the same.

namespace Cron

structure Advance where
  ok : Bool
  cursor : Instant
deriving DecidableEq

namespace Layout

variable {ι : Type}

def valueAt (l : Layout) (c : Column) (t : Instant) : Int :=
  match c with
  | .minute => t.minute
  | .hour => t.hour
  | .dayOfMonth => t.day
  | .month => t.month
  | .dayOfWeek => t.date.weekday + l.sunday
  | .year => t.year

def nextValue (l : Layout) (c : Column) (e : Expr ι) (start : Int) : Except Fault Int :=
  match e.next? (l.domain c) start with
  | some n => .ok n
  | none => .error .zeroStep

def admits (l : Layout) (c : Column) (e : Expr ι) (t : Instant) : Except Fault Bool := do
  let n ← l.nextValue c e (l.valueAt c t)
  .ok (n == l.valueAt c t)

-- Whether the month or the calendar of an instant reaches as far as a value.
def reaches (c : Column) (t : Instant) (n : Int) : Bool :=
  match c with
  | .dayOfMonth => n ≤ t.date.daysInMonth
  | .year => n ≤ lastYear
  | _ => true

-- The first instant at which a column has a value, the coarser units being those of `t`.
def moveTo (c : Column) (t : Instant) (n : Int) : Except Fault Instant :=
  match c with
  | .minute => t.atClock t.hour n
  | .hour => t.atClock n 0
  | .dayOfMonth => (Date.of t.year t.month n).map t.startOf
  | .month => (Date.of t.year n 1).map t.startOf
  | .dayOfWeek => .ok t
  | .year => (Date.of n 1 1).map t.startOf

-- The days from a weekday to the one that an answer `n` names, if it is not the same.
def daysAhead (current n : Int) : Int := if current < n then n - current else 7 - current + n.natAbs

def advanceWeekday (l : Layout) (e : Expr ι) (t : Instant) : Except Fault Advance := do
  let current := l.valueAt .dayOfWeek t
  let n ← l.nextValue .dayOfWeek e current
  if n = current then .ok ⟨true, t⟩
  else do
    let moved ← t.midnight.addDays (daysAhead current n)
    .ok ⟨moved.year == t.year && moved.month == t.month, moved⟩

-- Moves a cursor to the next instant of the current unit that a column admits.
def advance (l : Layout) (c : Column) (e : Expr ι) (t : Instant) : Except Fault Advance :=
  match c with
  | .dayOfWeek => l.advanceWeekday e t
  | c => do
    let current := l.valueAt c t
    let n ← l.nextValue c e current
    if n < current || !reaches c t n then .ok ⟨false, t⟩
    else if n = current then .ok ⟨true, t⟩
    else do
      let moved ← moveTo c t n
      .ok ⟨true, moved⟩

-- The first instant of the next unit; a weekday and a year have none and stay.
def roll (c : Column) (t : Instant) : Except Fault Instant :=
  match c with
  | .minute => t.ofTicks (t.ticks - t.clock % hourMicros + hourMicros)
  | .hour => t.midnight.addDays 1
  | .dayOfMonth =>
    if t.month = 12 then (Date.of (t.year + 1) 1 1).map t.startOf
    else (Date.of t.year (t.month + 1) 1).map t.startOf
  | .month => (Date.of (t.year + 1) 1 1).map t.startOf
  | .dayOfWeek | .year => .ok t

end Layout

end Cron
