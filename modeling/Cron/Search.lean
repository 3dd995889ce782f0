import Cron.Advance

-- The search for the next instant that all columns admit. A pass shows the cursor to the columns
-- from the coarsest to the finest. It ends early at a column that cannot be met within its unit,
-- after the next unit has been begun; passes are repeated until one leaves the cursor where it is.
--
-- The cursor of a repeated pass lies later than before, and the calendar ends: this bounds the
-- search.

namespace Cron

def searchOrder : List Column := [.year, .dayOfWeek, .month, .dayOfMonth, .hour, .minute]

structure Pass where
  cursor : Instant
  changed : Bool
  exhausted : Bool
deriving DecidableEq

inductive Outcome
  | found (t : Instant) (passes : Nat)
  | never (limit : Int) (passes : Nat)
  | pastLimit (limit : Int)
  | offCalendar
  | stalled
deriving DecidableEq

def Outcome.instant? : Outcome → Option Instant
  | .found t _ => some t
  | _ => none

-- The wording of how a search for a schedule with a given text ended, that began at `start`.
def Outcome.notice (cron : String) (start : Instant) : Outcome → String
  | .found t passes => s!"Resolved {Text.quote cron} after {passes} passes: {t.plain}"
  | .never limit passes => s!"No trigger for {Text.quote cron} up to year {limit} ({passes} passes)"
  | .pastLimit limit => s!"Reference {start.plain} is past the search limit {limit}"
  | .offCalendar | .stalled => s!"Search for {Text.quote cron} ran past the calendar"

namespace Layout

variable {ι : Type}

def passOver (l : Layout) (roots : Columns (Expr ι)) :
    List Column → Bool → Instant → Except Fault Pass
  | [], changed, t => .ok ⟨t, changed, false⟩
  | c :: rest, changed, t => do
    let a ← l.advance c (roots.get c) t
    if a.ok then l.passOver roots rest (changed || a.cursor != t) a.cursor
    else
      match c with
      | .year => .ok ⟨t, changed, true⟩
      | .dayOfWeek => .ok ⟨a.cursor, true, false⟩
      | c => (roll c t).map fun next => ⟨next, true, false⟩

def pass (l : Layout) (roots : Columns (Expr ι)) (t : Instant) : Except Fault Pass :=
  l.passOver roots searchOrder false t

-- Passes from a cursor on, `passes` of them having been made before.
def searchFrom (l : Layout) (roots : Columns (Expr ι)) (limit : Int) (passes : Nat) (t : Instant) :
    Except Fault Outcome :=
  match l.pass roots t with
  | .error .zeroStep => .error .zeroStep
  | .error _ => .ok .offCalendar
  | .ok p =>
    if p.exhausted || limit < p.cursor.year then .ok (.never limit (passes + 1))
    else if !p.changed then .ok (.found p.cursor (passes + 1))
    else if t.ticks < p.cursor.ticks then l.searchFrom roots limit (passes + 1) p.cursor
    else .ok .stalled
termination_by t.remaining
decreasing_by exact Instant.remaining_lt ‹_›

def searchLimit (l : Layout) (t : Instant) : Int :=
  min (max (l.domain .year).upper (t.year + l.horizon)) (lastYear - 1)

-- The search for the first whole minute at or after `t` that all columns admit.
def search (l : Layout) (roots : Columns (Expr ι)) (t : Instant) : Except Fault Outcome :=
  match t.ceilMinute with
  | .error _ => .ok .offCalendar
  | .ok cursor =>
    if l.searchLimit t < cursor.year then .ok (.pastLimit (l.searchLimit t))
    else l.searchFrom roots (l.searchLimit t) 0 cursor

end Layout

end Cron
