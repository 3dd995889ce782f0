import Cron.Schedule.Basic

-- Jobs. A job owns schedules and is due at the earliest instant that any of them selects. It looks
-- for its next occurrence from `last` on, the instant before which it may not run again, or from a
-- given instant if it has not run yet.

namespace Cron

-- What a job runs: a function, or a body of its own class; each has a name.
inductive Body
  | function (name : Codes)
  | own (title : String)
deriving DecidableEq, Repr

def Body.title : Body → String
  | .function _ => "FunctionJob"
  | .own title => title

-- How a call of a body ends. A body that returns or raises an exception leaves the scheduler at
-- work. One that asks for the end of the program raises what is no exception, and what nobody
-- catches.
inductive Ending
  | returns
  | raises (message : Codes)
  | exits
deriving DecidableEq, Repr

structure Job where
  name : Codes
  body : Body
  dialect : Dialect
  schedules : List Schedule
  -- How each call of the body ends, by the number of calls before it.
  ending : Nat → Ending
  next : Option Instant
  last : Option Instant
  runCount : Nat

namespace Job

def bodyName (j : Job) : Codes :=
  match j.body with
  | .function name => name
  | .own _ => j.name

def new (name : Codes) (body : Body) (dialect : Dialect) (schedules : List Schedule)
    (ending : Nat → Ending) : Job where
  name :=
    match body with
    | .function own => if name.isEmpty then own else name
    | .own _ => name
  body := body
  dialect := dialect
  schedules := schedules
  ending := ending
  next := none
  last := none
  runCount := 0

def inspect (j : Job) : String :=
  let schedules := String.intercalate ", " (j.schedules.map fun s => Text.quote s.cron)
  s!"{j.body.title}({schedules}, name={Text.quote j.name})"

def earlier (a b : Instant) : Instant := if b.universal < a.universal then b else a

def earliest (t : Instant) : List Schedule → Except Fault (Option Instant)
  | [] => .ok none
  | s :: rest => do
    let first ← s.next? t
    let others ← earliest t rest
    match first, others with
    | some a, some b => .ok (some (earlier a b))
    | some a, none => .ok (some a)
    | none, others => .ok others

-- Looks for the next occurrence from `last` on, or from `start` if the job has not run yet.
def recompute (j : Job) (start : Instant) : Except Fault Job := do
  let next ← earliest (j.last.getD start) j.schedules
  .ok { j with next := next }

def restart (j : Job) (t : Instant) (interval : Int) : Except Fault Job := do
  let last ← t.add interval
  { j with last := some last }.recompute last

-- Calls the body at `now` and looks for the next occurrence, however the call ends. A fault while
-- looking takes the place of whatever the body has raised.
def run (j : Job) (now : Instant) (interval : Int) : Job × Except Fault Ending :=
  let counted := { j with runCount := j.runCount + 1 }
  match counted.restart now interval with
  | .error f => (counted, .error f)
  | .ok after => (after, .ok (j.ending j.runCount))

end Job

end Cron
