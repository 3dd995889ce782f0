import Cron.Job
import Cron.Number.Seconds

-- Handling due jobs. A job that is due runs if it is late by less than the missed window; otherwise
-- its occurrence is passed over. Either way the next occurrence lies at least the smallest interval
-- ahead: of the run, or of the occurrence that was missed.
--
-- A body that raises an exception is reported as failed. One that exits ends the round.

namespace Cron

structure Timing where
  missedWindow : Int
  -- What is added to a run or a missed occurrence before the next is sought.
  smallestInterval : Int
  pollInterval : Int
  startDelay : Int
deriving DecidableEq, Repr

-- Two hours, one minute, one hour and one minute.
def Timing.standard : Timing := ⟨7200000000, 60000000, 3600000000, 60000000⟩

inductive TickOutcome
  | ran
  | missed
  | failed
deriving DecidableEq, Repr

def TickOutcome.name : TickOutcome → String
  | .ran => "ran"
  | .missed => "missed"
  | .failed => "failed"

structure Handled where
  job : Codes
  outcome : TickOutcome
  due : Instant
  next : Option Instant
  error : Option Codes

-- What ends a round before all jobs have been looked at.
inductive Halt
  | fault (f : Fault)
  | exit
deriving DecidableEq, Repr

inductive Level
  | debug
  | info
  | warning
  | error
deriving DecidableEq, Repr

def Level.name : Level → String
  | .debug => "DEBUG"
  | .info => "INFO"
  | .warning => "WARNING"
  | .error => "ERROR"

inductive Notice
  | added (job : Codes) (next : Option Instant)
  | running (job : Codes) (due : Instant)
  | called (body : Codes)
  | failed (job : Codes)
  | nextRun (job : Codes) (next : Option Instant)
  | missed (job : Codes) (due : Instant)
  | waitingToStart (micros : Int)
  | waiting (micros : Int)
  | stopped
deriving DecidableEq

namespace Notice

def instantText (t : Option Instant) : String := t.elim "None" Instant.plain

-- The weight and the wording of a notice; that a body was run is not logged.
def log? : Notice → Option (Level × Codes)
  | added job next => some (.debug, "Added job " ++ job ++ s!", next run: {instantText next}")
  | running job due => some (.info, "Running job " ++ job ++ s!" (due {due.plain})")
  | called _ => none
  | failed job => some (.error, "Job " ++ job ++ " failed")
  | nextRun job next => some (.debug, "Next run of " ++ job ++ s!": {instantText next}")
  | missed job due => some (.warning, job ++ s!" missed its scheduled window (due {due.plain})")
  | waitingToStart micros =>
    some (.debug, s!"Scheduler waiting {(Double.ofMicros micros).tenths}s before starting")
  | waiting micros => some (.debug, s!"Scheduler waiting {(Double.ofMicros micros).tenths}s")
  | stopped => some (.error, "Scheduler loop stopped")

def call? : Notice → Option Codes
  | called body => some body
  | _ => none

end Notice

namespace Job

def runDue (timing : Timing) (now due : Instant) (j : Job) :
    Job × List Notice × Except Halt Handled :=
  let begun := [.running j.name due, .called j.bodyName]
  let failed (j : Job) (message : Codes) :=
    (j, begun ++ [.failed j.name], .ok ⟨j.name, .failed, due, j.next, some message⟩)
  match j.run now timing.smallestInterval with
  | (j, .ok .returns) =>
    (j, begun ++ [.nextRun j.name j.next], .ok ⟨j.name, .ran, due, j.next, none⟩)
  | (j, .ok (.raises message)) => failed j message
  | (j, .error f) => failed j f.message
  | (j, .ok .exits) => (j, begun, .error .exit)

def miss (timing : Timing) (due : Instant) (j : Job) : Job × List Notice × Except Halt Handled :=
  match j.restart due timing.smallestInterval with
  | .ok j => (j, [.missed j.name due], .ok ⟨j.name, .missed, due, j.next, none⟩)
  | .error f => (j, [.missed j.name due], .error (.fault f))

def handle (timing : Timing) (now : Instant) (j : Job) :
    Job × List Notice × Except Halt (Option Handled) :=
  match j.next with
  | none => (j, [], .ok none)
  | some due =>
    match now.before due, now.add (-timing.missedWindow) with
    | .error f, _ => (j, [], .error (.fault f))
    | .ok true, _ => (j, [], .ok none)
    | .ok false, .error f => (j, [], .error (.fault f))
    | .ok false, .ok oldest =>
      let (j, notices, handled) :=
        if oldest.universal < due.universal then j.runDue timing now due else j.miss timing due
      (j, notices, handled.map some)

end Job

inductive Thread
  | off
  | delayed
  | asleep
  | busy
deriving DecidableEq, Repr

inductive Status
  | active
  | stopped
  | error
deriving DecidableEq, Repr

def Status.name : Status → String
  | .active => "active"
  | .stopped => "stopped"
  | .error => "error"

-- A scheduler, and all jobs there are: `registered` lists the places of those it handles.
structure Scheduler where
  timing : Timing
  jobs : List Job
  registered : List Nat
  thread : Thread
  status : Status

namespace Scheduler

def idle (timing : Timing) (jobs : List Job) : Scheduler := ⟨timing, jobs, [], .off, .stopped⟩

def setJob (s : Scheduler) (i : Nat) (j : Job) : Scheduler := { s with jobs := s.jobs.set i j }

def handledJobs (s : Scheduler) : List Job := s.registered.filterMap fun i => s.jobs[i]?

def tickOver (now : Instant) :
    List Nat → Scheduler → Scheduler × List Notice × Except Halt (List Handled)
  | [], s => (s, [], .ok [])
  | i :: rest, s =>
    match s.jobs[i]? with
    | none => tickOver now rest s
    | some job =>
      match job.handle s.timing now with
      | (job, notices, .error h) => (s.setJob i job, notices, .error h)
      | (job, notices, .ok handled) =>
        let (s, more, others) := tickOver now rest (s.setJob i job)
        (s, notices ++ more, others.map fun list => handled.toList ++ list)

def tick (s : Scheduler) (now : Instant) : Scheduler × List Notice × Except Halt (List Handled) :=
  tickOver now s.registered s

-- The shortest of `wait` and the microseconds from `now` to the next occurrences.
def waitOver (now : Instant) : Int → List Job → Except Fault Int
  | wait, [] => .ok wait
  | wait, j :: rest =>
    match j.next with
    | none => waitOver now wait rest
    | some next => do
      let ahead ← next.since now
      waitOver now (min wait ahead) rest

-- Microseconds until the earliest job is due, at most the poll interval and at least none.
def wait (s : Scheduler) (now : Instant) : Except Fault Int :=
  (waitOver now s.timing.pollInterval s.handledJobs).map (max 0)

end Scheduler

end Cron
